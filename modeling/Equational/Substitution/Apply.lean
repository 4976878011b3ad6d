import Equational.Substitution.Basic

/-! Applying and composing substitutions. A term under a substitution is rebuilt from the
leaves up, so that its applications come out in canonical shape; the empty substitution
leaves a term as it stands. -/

namespace Equational

namespace Substitution

def image (σ : Substitution) (v : Variable) : Term :=
  (σ.find? v).getD (.var v)

mutual

def rebuild (σ : Substitution) : Term → Term
  | .var v => σ.image v
  | .const c => .const c
  | .node f args => .app f (rebuildList σ args)

def rebuildList (σ : Substitution) : List Term → List Term
  | [] => []
  | arg :: args => rebuild σ arg :: rebuildList σ args

end

def apply (σ : Substitution) (t : Term) : Term :=
  if σ.isEmpty then t else σ.rebuild t

theorem image_of_not_mem {σ : Substitution} {v : Variable} (free : v ∉ σ.domain) : σ.image v = .var v := by
  simp [image, find?_eq_none_iff.mpr free]

private theorem mem_vars_rebuild {σ : Substitution} {v : Variable} (t : Term)
    (member : v ∈ (σ.rebuild t).vars) : ∃ w ∈ t.vars, v ∈ (σ.image w).vars := by
  induction t with
  | var w => exact ⟨w, by simp [Term.vars], member⟩
  | const c => simp [rebuild, Term.vars] at member
  | node f args ih =>
    have inside := Term.mem_vars_app member
    clear member
    induction args with
    | nil => simp [rebuildList, Term.varsList] at inside
    | cons arg args rest =>
      simp only [rebuildList, Term.varsList, List.mem_append] at inside
      simp only [Term.vars, Term.varsList, List.mem_append, List.mem_cons, forall_eq_or_imp] at ih rest ⊢
      rcases inside with inside | inside
      · obtain ⟨w, first, found⟩ := ih.1 inside
        exact ⟨w, .inl first, found⟩
      · obtain ⟨w, later, found⟩ := rest ih.2 inside
        exact ⟨w, .inr later, found⟩

/-- Every variable of the result comes from the image of a variable. -/
theorem mem_vars_apply {σ : Substitution} {v : Variable} {t : Term}
    (member : v ∈ (σ.apply t).vars) : ∃ w ∈ t.vars, v ∈ (σ.image w).vars := by
  unfold apply at member
  split at member
  next none =>
    refine ⟨v, member, ?_⟩
    have free : v ∉ σ.domain := by simp [domain, List.isEmpty_iff.mp none]
    simp [image_of_not_mem free, Term.vars]
  next => exact mem_vars_rebuild t member

private theorem size_rebuild_le {σ : Substitution} (t : Term) (free : ∀ v ∈ t.vars, v ∉ σ.domain) :
    (σ.rebuild t).size ≤ t.size := by
  induction t with
  | var v => simp [rebuild, image_of_not_mem (free v (by simp [Term.vars]))]
  | const c => simp [rebuild]
  | node f args ih =>
    refine Nat.le_trans (Term.size_app_le _ _) ?_
    simp only [Term.size, Term.vars] at free ⊢
    suffices Term.sizeList (rebuildList σ args) ≤ Term.sizeList args by omega
    induction args with
    | nil => simp [rebuildList]
    | cons arg args rest =>
      simp only [Term.varsList, List.mem_append, or_imp, forall_and] at free
      simp only [List.mem_cons, forall_eq_or_imp] at ih
      have first := ih.1 free.1
      have later := rest ih.2 free.2
      simp only [rebuildList, Term.sizeList]
      omega

/-- A term without bound variables can only lose symbols, when it comes into canonical shape. -/
theorem size_apply_le {σ : Substitution} {t : Term} (free : ∀ v ∈ t.vars, v ∉ σ.domain) :
    (σ.apply t).size ≤ t.size := by
  unfold apply
  split
  · exact Nat.le_refl _
  · exact size_rebuild_le t free

def applyEquation (σ : Substitution) (equation : Equation) : Equation :=
  ⟨σ.apply equation.lhs, σ.apply equation.rhs⟩

/-- First `σ`, then `τ`. A variable that `σ` binds is out of the reach of `τ` itself. -/
def compose (σ τ : Substitution) : Substitution where
  bindings :=
    ((σ.mapRange τ.apply).keep fun p => p.2 != .var p.1).bindings ++
      (τ.keep fun p => !σ.domain.contains p.1).bindings
  distinct := by
    rw [List.map_append, List.nodup_append]
    refine ⟨Substitution.distinct _, Substitution.distinct _, ?_⟩
    rintro a inFirst b inSecond rfl
    simp only [keep, mapRange, List.mem_map, List.mem_filter] at inFirst inSecond
    obtain ⟨_, ⟨⟨⟨p, member, rfl⟩, _⟩, same⟩⟩ := inFirst
    obtain ⟨q, ⟨_, outside⟩, rfl⟩ := inSecond
    have bound : p.1 ∈ σ.domain := List.mem_map_of_mem member
    have equal : p.1 = q.1 := same
    rw [equal] at bound
    simp [bound] at outside

/-- Binds one more variable and keeps the bindings solved: the earlier bindings are applied to
the new term, and the new binding is applied to the earlier terms. -/
def assign (σ : Substitution) (v : Variable) (t : Term) (unbound : v ∉ σ.domain) : Substitution :=
  let t := σ.apply t
  let single : Substitution := { bindings := [(v, t)] }
  (σ.mapRange single.apply).extend v t (by simpa [domain, mapRange, Function.comp_def] using unbound)

theorem domain_assign {σ : Substitution} {v : Variable} {t : Term} (unbound : v ∉ σ.domain) :
    (σ.assign v t unbound).domain = σ.domain ++ [v] := by
  simp [assign, extend, mapRange, domain, Function.comp_def]

/-- Every variable of a bound term comes from the new term or from an earlier one, and there
only the others remain. -/
theorem mem_range_assign {σ : Substitution} {v : Variable} {t u : Term} {unbound : v ∉ σ.domain}
    (member : u ∈ (σ.assign v t unbound).range) {w : Variable} (occurs : w ∈ u.vars) :
    w ∈ (σ.apply t).vars ∨ w ≠ v ∧ ∃ earlier ∈ σ.range, w ∈ earlier.vars := by
  simp only [assign, extend, mapRange, range, List.map_append, List.map_map, List.map_cons, List.map_nil,
    List.mem_append, List.mem_map, List.mem_singleton, Function.comp_apply] at member
  rcases member with ⟨p, inside, rfl⟩ | rfl
  · obtain ⟨x, inEarlier, found⟩ := mem_vars_apply occurs
    unfold image at found
    by_cases same : x = v
    · left
      simpa [find?, List.lookup_cons, same] using found
    · right
      have missing : find? { bindings := [(v, σ.apply t)] } x = none := by
        simp [find?, List.lookup_cons, beq_eq_false_iff_ne.mpr same]
      simp only [missing, Option.getD_none, Term.vars, List.mem_singleton] at found
      subst found
      exact ⟨same, p.2, List.mem_map_of_mem inside, inEarlier⟩
  · exact .inl occurs

end Substitution

end Equational
