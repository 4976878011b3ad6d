import Equational.Proofs.Term.Renaming
import Equational.Proofs.Unification.Soundness

/-! Equations the other way round. A run on equations and a run on the same equations with their sides
exchanged take the same steps, so they fail together. They differ where two variables meet: each run
keeps the one that the other replaces. A permutation of the variables keeps account of this, and up to
the permutation the two bind the same terms. -/

namespace Equational

def Equation.rename (κ : Variable → Variable) (e : Equation) : Equation :=
  ⟨e.lhs.rename κ, e.rhs.rename κ⟩

namespace Demand

variable {ρ : Equiv.Perm Variable}

/-- What two terms ask for, and what they ask for when they are renamed and compared the other way round. -/
inductive Mirrored (ρ : Equiv.Perm Variable) : Except Failure Demand → Except Failure Demand → Prop where
  | error (failure failure' : Failure) : Mirrored ρ (.error failure) (.error failure')
  | nothing : Mirrored ρ (.ok .nothing) (.ok .nothing)
  | binding (v : Variable) (t : Term) : Mirrored ρ (.ok (.binding v t)) (.ok (.binding (ρ v) (t.rename ρ)))
  | exchange {v w : Variable} (different : v ≠ w) (sort : w.sort = v.sort) :
      Mirrored ρ (.ok (.binding v (.var w))) (.ok (.binding (ρ w) (.var (ρ v))))
  | equations (pending : List Equation) :
      Mirrored ρ (.ok (.equations pending)) (.ok (.equations (pending.map fun e => (e.rename ρ).swapped)))

section Inversion

variable {outcome : Except Failure Demand}

private theorem Mirrored.of_error {failure : Failure} (mirrored : Mirrored ρ (.error failure) outcome) :
    ∃ failure', outcome = .error failure' := by
  cases mirrored with
  | error _ failure' => exact ⟨failure', rfl⟩

private theorem Mirrored.of_nothing (mirrored : Mirrored ρ (.ok .nothing) outcome) : outcome = .ok .nothing := by
  cases mirrored
  rfl

private theorem Mirrored.of_binding {v : Variable} {t : Term} (mirrored : Mirrored ρ (.ok (.binding v t)) outcome) :
    outcome = .ok (.binding (ρ v) (t.rename ρ)) ∨
      ∃ w, t = .var w ∧ v ≠ w ∧ w.sort = v.sort ∧ outcome = .ok (.binding (ρ w) (.var (ρ v))) := by
  cases mirrored with
  | binding => exact .inl rfl
  | exchange different sort => exact .inr ⟨_, rfl, different, sort, rfl⟩

private theorem Mirrored.of_equations {pending : List Equation}
    (mirrored : Mirrored ρ (.ok (.equations pending)) outcome) :
    outcome = .ok (.equations (pending.map fun e => (e.rename ρ).swapped)) := by
  cases mirrored
  rfl

end Inversion

variable (sorts : ∀ v, (ρ v).sort = v.sort)
include sorts

private theorem mirrored_bind (v : Variable) (t : Term) : Mirrored ρ (bind v t) (bind (ρ v) (t.rename ρ)) := by
  simp only [bind, sorts, Term.sort_rename sorts, Term.contains_rename ρ.injective]
  split
  · exact .error _ _
  · split
    · exact .error _ _
    · exact .binding v t

private theorem mirrored_bind_var {v w : Variable} (different : v ≠ w) :
    Mirrored ρ (bind v (.var w)) (bind (ρ w) (.var (ρ v))) := by
  have apart : ρ v ≠ ρ w := fun same => different (ρ.injective same)
  by_cases sort : w.sort = v.sort
  · have first : bind v (.var w) = .ok (.binding v (.var w)) := by
      simp [bind, Term.sort, sort, Term.contains, Term.vars, different]
    have second : bind (ρ w) (.var (ρ v)) = .ok (.binding (ρ w) (.var (ρ v))) := by
      simp [bind, Term.sort, sorts, sort, Term.contains, Term.vars, apart.symm]
    rw [first, second]
    exact .exchange different sort
  · have first : bind v (.var w) = .error (.sortMismatch v.sort w.sort) := by simp [bind, Term.sort, Ne.symm sort]
    have second : bind (ρ w) (.var (ρ v)) = .error (.sortMismatch w.sort v.sort) := by
      simp [bind, Term.sort, sorts, sort]
    rw [first, second]
    exact .error _ _

omit sorts in
private theorem zipWith_rename (xs ys : List Term) :
    List.zipWith Equation.mk (ys.map (Term.rename ρ)) (xs.map (Term.rename ρ)) =
      (List.zipWith Equation.mk xs ys).map fun e => (e.rename ρ).swapped := by
  rw [List.map_zipWith, List.zipWith_map, List.zipWith_comm]
  rfl

private theorem mirrored_between (s t : Term) : Mirrored ρ (between s t) (between (t.rename ρ) (s.rename ρ)) := by
  have exchanged : (t.rename ρ == s.rename ρ) = (s == t) := (Term.beq_rename ρ.injective t s).trans BEq.comm
  cases equal : s == t with
  | true =>
    simp only [between, equal, exchanged, ↓reduceIte]
    exact .nothing
  | false =>
    simp only [between, equal, exchanged, Bool.false_eq_true, ↓reduceIte]
    cases s with
    | var v =>
      cases t with
      | var w =>
        refine mirrored_bind_var sorts fun same => ?_
        rw [same, BEq.rfl] at equal
        cases equal
      | const c => exact mirrored_bind sorts v (.const c)
      | node g ys => exact mirrored_bind sorts v (.node g ys)
    | const c =>
      cases t with
      | var w => exact mirrored_bind sorts w (.const c)
      | const d => exact .error _ _
      | node g ys => exact .error _ _
    | node f xs =>
      cases t with
      | var w => exact mirrored_bind sorts w (.node f xs)
      | const d => exact .error _ _
      | node g ys =>
        simp only [Term.rename_node, List.length_map, bne_comm (a := g.id), bne_comm (a := ys.length)]
        split
        · exact .error _ _
        · split
          · exact .error _ _
          · rw [zipWith_rename]
            exact .equations _

end Demand

private theorem Substitution.isEmpty_assign {σ : Substitution} {v : Variable} {t : Term} (unbound : v ∉ σ.domain) :
    (σ.assign v t unbound).isEmpty = false := by
  simp [assign, extend, isEmpty]

namespace Unifier

variable {ρ ρ' : Equiv.Perm Variable} {σ σ' : Substitution} {e e' : Equation} {v w : Variable} {t : Term}

/-- Up to the permutation the two substitutions give every variable the same term. -/
structure Mirrors (ρ : Equiv.Perm Variable) (σ σ' : Substitution) : Prop where
  sorts : ∀ v, (ρ v).sort = v.sort
  empty : σ'.isEmpty = σ.isEmpty
  image : ∀ v, σ'.image v = (σ.image v).rename ρ

/-- The permutation leads from variables that are free in the one to variables that are free in the other. -/
theorem Mirrors.image_free (mirrors : Mirrors ρ σ σ') (solved : ∀ t ∈ σ'.range, ∀ v ∈ t.vars, v ∉ σ'.domain)
    (free : v ∉ σ.domain) : σ'.image (ρ v) = .var (ρ v) := by
  have image : σ'.image v = .var (ρ v) := by rw [mirrors.image, Substitution.image_of_not_mem free, Term.rename_var]
  rcases σ'.image_mem_or v with bound | ⟨_, kept⟩
  · rw [image] at bound
    exact Substitution.image_of_not_mem (solved _ (Substitution.mem_range_of_mem bound) (ρ v) (by simp [Term.vars]))
  · have fixed : ρ v = v := Term.var.inj (image.symm.trans kept)
    rw [fixed, kept]

/-- The second equation is the first one with its sides exchanged and its variables renamed to such that
are given the same terms, up to the permutation. -/
def Corresponds (ρ : Equiv.Perm Variable) (σ σ' : Substitution) (e e' : Equation) : Prop :=
  ∃ κ : Variable → Variable, e' = (e.rename κ).swapped ∧ ∀ v ∈ e.vars, σ'.image (κ v) = (σ.image v).rename ρ

private theorem Corresponds.mirrored (corresponds : Corresponds ρ σ σ' e e') (mirrors : Mirrors ρ σ σ') :
    Demand.Mirrored ρ (Demand.between (σ.apply e.lhs) (σ.apply e.rhs))
      (Demand.between (σ'.apply e'.lhs) (σ'.apply e'.rhs)) := by
  obtain ⟨κ, rfl, images⟩ := corresponds
  obtain ⟨left, right⟩ := List.forall_mem_append.mp images
  change Demand.Mirrored ρ _ (Demand.between (σ'.apply (e.rhs.rename κ)) (σ'.apply (e.lhs.rename κ)))
  rw [Substitution.apply_rename ρ.injective mirrors.empty left,
    Substitution.apply_rename ρ.injective mirrors.empty right]
  exact Demand.mirrored_between mirrors.sorts _ _

section Assign

variable {v' : Variable} {t' : Term} {unbound : v ∉ σ.domain} {unbound' : v' ∉ σ'.domain}
  (carries : ∀ w, (Substitution.single v' (σ'.apply t')).image (ρ w) =
    ((Substitution.single v (σ.apply t)).image w).rename ρ')
include carries

private theorem image_assign_of_carries {x : Variable} (same : σ'.image w = (σ.image x).rename ρ) :
    (σ'.assign v' t' unbound').image w = ((σ.assign v t unbound).image x).rename ρ' := by
  rw [Substitution.image_assign, Substitution.image_assign, same]
  exact Substitution.apply_rename ρ'.injective rfl fun y _ => carries y

private theorem Mirrors.assign (mirrors : Mirrors ρ σ σ') (sorts : ∀ v, (ρ' v).sort = v.sort) :
    Mirrors ρ' (σ.assign v t unbound) (σ'.assign v' t' unbound') where
  sorts := sorts
  empty := by rw [Substitution.isEmpty_assign, Substitution.isEmpty_assign]
  image x := image_assign_of_carries carries (mirrors.image x)

private theorem Corresponds.assign (corresponds : Corresponds ρ σ σ' e e') :
    Corresponds ρ' (σ.assign v t unbound) (σ'.assign v' t' unbound') e e' := by
  obtain ⟨κ, same, images⟩ := corresponds
  exact ⟨κ, same, fun x occurs => image_assign_of_carries carries (images x occurs)⟩

end Assign

section Free

variable (mirrors : Mirrors ρ σ σ') (solved : ∀ t ∈ σ'.range, ∀ v ∈ t.vars, v ∉ σ'.domain)
include mirrors solved

private theorem Mirrors.apply_free (free : ∀ v ∈ t.vars, v ∉ σ.domain) :
    σ'.apply (t.rename ρ) = (σ.apply t).rename ρ := by
  refine Substitution.apply_rename ρ.injective mirrors.empty fun v occurs => ?_
  rw [mirrors.image_free solved (free v occurs), Substitution.image_of_not_mem (free v occurs), Term.rename_var]

private theorem Mirrors.carries_binding (free : ∀ v ∈ t.vars, v ∉ σ.domain) (x : Variable) :
    (Substitution.single (ρ v) (σ'.apply (t.rename ρ))).image
      (ρ x) = ((Substitution.single v (σ.apply t)).image x).rename ρ := by
  rw [Substitution.image_single, Substitution.image_single, mirrors.apply_free solved free]
  simp only [ρ.injective.eq_iff]
  split <;> simp

private theorem Mirrors.carries_exchange (first : v ∉ σ.domain) (second : w ∉ σ.domain) (different : v ≠ w)
    (x : Variable) :
    (Substitution.single (ρ w) (σ'.apply (.var (ρ v)))).image (ρ x) =
      ((Substitution.single v (σ.apply (.var w))).image x).rename (ρ * Equiv.swap v w) := by
  rw [Substitution.image_single, Substitution.image_single, Substitution.apply_var, Substitution.apply_var,
    mirrors.image_free solved first, Substitution.image_of_not_mem second]
  simp only [ρ.injective.eq_iff]
  by_cases one : x = v
  · subst one
    simp [different]
  · by_cases other : x = w
    · subst other
      simp [one]
    · simp [one, other, Equiv.swap_apply_of_ne_of_ne]

end Free

/-- Both runs fail, or both end with substitutions that mirror each other. -/
inductive Alike : Except Failure Substitution → Except Failure Substitution → Prop where
  | error (failure failure' : Failure) : Alike (.error failure) (.error failure')
  | ok {ρ : Equiv.Perm Variable} {σ σ' : Substitution} (mirrors : Mirrors ρ σ σ') : Alike (.ok σ) (.ok σ')

private theorem Invariant.pending_free {scope : List Variable} {rest pending : List Equation}
    (inv : Invariant scope σ (e :: rest))
    (found : Demand.between (σ.apply e.lhs) (σ.apply e.rhs) = .ok (.equations pending)) :
    ∀ d ∈ pending, ∀ v ∈ d.vars, v ∉ σ.domain := by
  obtain ⟨f, g, xs, ys, left, right, rfl⟩ := Demand.between_eq_equations found
  obtain ⟨leftInScope, rightInScope⟩ := List.forall_mem_append.mp (inv.pending e (List.mem_cons_self ..))
  intro d member v occurs
  obtain ⟨i, within, rfl⟩ := List.getElem_of_mem member
  rw [List.getElem_zipWith] at occurs
  rcases List.mem_append.mp occurs with occurs | occurs
  · refine (inv.image leftInScope ?_).1
    rw [left, Term.vars, Term.mem_varsList]
    exact ⟨_, List.getElem_mem _, occurs⟩
  · refine (inv.image rightInScope ?_).1
    rw [right, Term.vars, Term.mem_varsList]
    exact ⟨_, List.getElem_mem _, occurs⟩

private theorem sort_exchange (mirrors : Mirrors ρ σ σ') (sort : w.sort = v.sort) (x : Variable) :
    ((ρ * Equiv.swap v w) x).sort = x.sort := by
  rw [Equiv.Perm.mul_apply, mirrors.sorts, Variable.sort_swap sort]

/-- Two runs that have come to the same point go on alike. -/
theorem alike_solve {scope scope' : List Variable} {work work' : List Equation} {inv : Invariant scope σ work}
    {inv' : Invariant scope' σ' work'} (mirrors : Mirrors ρ σ σ')
    (pairs : List.Forall₂ (Corresponds ρ σ σ') work work') :
    Alike (solve scope σ work inv) (solve scope' σ' work' inv') := by
  fun_induction solve scope σ work inv generalizing ρ σ' work' with
  | case1 σ inv =>
    cases pairs
    rw [solve]
    exact .ok mirrors
  | case2 σ e rest inv failure found =>
    rcases pairs with _ | ⟨first, others⟩
    obtain ⟨failure', found'⟩ := (found ▸ first.mirrored mirrors).of_error
    rw [solve_of_error inv' found']
    exact .error failure failure'
  | case3 σ e rest inv found _ ih =>
    rcases pairs with _ | ⟨first, others⟩
    have found' := (found ▸ first.mirrored mirrors).of_nothing
    rw [solve_of_nothing inv' found']
    exact ih mirrors others
  | case4 σ e rest inv v t found facts _ ih =>
    rcases pairs with _ | ⟨first, others⟩
    rcases (found ▸ first.mirrored mirrors).of_binding with found' | ⟨w, rfl, different, sort, found'⟩
    · have carries := mirrors.carries_binding (v := v) inv'.solved facts.free
      obtain ⟨inv₁, step⟩ := solve_of_binding inv' (inv'.binding found').unbound found'
      rw [step]
      exact ih (mirrors.assign carries mirrors.sorts) (others.imp fun _ _ => Corresponds.assign carries)
    -- Both sides are variables, and the second run binds the one that the first run keeps.
    · have free : w ∉ σ.domain := facts.free w (by simp [Term.vars])
      have carries := mirrors.carries_exchange inv'.solved facts.unbound free different
      obtain ⟨inv₁, step⟩ := solve_of_binding inv' (inv'.binding found').unbound found'
      rw [step]
      exact ih (mirrors.assign carries (sort_exchange mirrors sort))
        (others.imp fun _ _ => Corresponds.assign carries)
  | case5 σ e rest inv pending found shape _ ih =>
    rcases pairs with _ | ⟨first, others⟩
    have found' := (found ▸ first.mirrored mirrors).of_equations
    obtain ⟨inv₁, step⟩ := solve_of_equations inv' found'
    rw [step]
    refine ih mirrors
      (List.rel_append (List.forall₂_map_right_iff.mpr (List.forall₂_same.mpr fun d member => ?_)) others)
    refine ⟨ρ, rfl, fun x occurs => ?_⟩
    have free := inv.pending_free found d member x occurs
    rw [mirrors.image_free inv'.solved free, Substitution.image_of_not_mem free, Term.rename_var]

end Unifier

/-- Exchanging the sides of all equations makes no difference to whether they are unified, and up to a
permutation of the variables none to what is bound. -/
theorem unifyAll_swapped (equations : List Equation) :
    Unifier.Alike (unifyAll equations) (unifyAll (equations.map Equation.swapped)) := by
  have start : Unifier.Mirrors 1 .empty .empty := ⟨fun _ => rfl, rfl, fun _ => rfl⟩
  refine Unifier.alike_solve start (List.forall₂_map_right_iff.mpr (List.forall₂_same.mpr fun e _ => ?_))
  refine ⟨id, ?_, fun v _ => rfl⟩
  rw [Equation.rename, Term.rename_id, Term.rename_id]

theorem unify_swapped (s t : Term) : Unifier.Alike (unify s t) (unify t s) :=
  unifyAll_swapped [⟨s, t⟩]

/-- The substitution permutes the variables within their sorts. -/
def Substitution.IsRenaming (θ : Substitution) : Prop :=
  ∃ π : Equiv.Perm Variable, (∀ v, (π v).sort = v.sort) ∧ ∀ v, θ.image v = .var (π v)

namespace Unifier

variable {ρ : Equiv.Perm Variable} {σ σ' : Substitution}

private theorem Alike.isOk_eq {outcome outcome' : Except Failure Substitution} (alike : Alike outcome outcome') :
    outcome.isOk = outcome'.isOk := by
  cases alike with
  | error | ok => rfl

private theorem Alike.exists_mirrors (alike : Alike (.ok σ) (.ok σ')) : ∃ ρ, Mirrors ρ σ σ' := by
  cases alike with
  | ok mirrors => exact ⟨_, mirrors⟩

private theorem Mirrors.exists_image_eq (mirrors : Mirrors ρ σ σ') :
    ∃ θ : Substitution, ∀ v, θ.image v = .var (ρ v) := by
  refine ⟨.tabulate (fun v => .var (ρ v)) (σ.domain ++ σ'.domain), fun v => ?_⟩
  by_cases listed : v ∈ σ.domain ++ σ'.domain
  · exact Substitution.image_tabulate listed
  · have outside : v ∉ (Substitution.tabulate (fun v => .var (ρ v)) (σ.domain ++ σ'.domain)).domain := by
      rwa [Substitution.domain_tabulate]
    obtain ⟨first, second⟩ := not_or.mp (List.mem_append.not.mp listed)
    have fixed := mirrors.image v
    rw [Substitution.image_of_not_mem first, Substitution.image_of_not_mem second, Term.rename_var] at fixed
    rw [Substitution.image_of_not_mem outside, fixed]

end Unifier

/-- Unification is symmetric for symbols of all theories: one order of the two terms succeeds if and
only if the other does, and the two unifiers differ by a renaming. -/
theorem unify_symmetric {s t : Term} (left : s.isCanonical = true) (right : t.isCanonical = true) :
    ((unify s t).isOk = true ↔ (unify t s).isOk = true) ∧
      ∀ σ σ', unify s t = .ok σ → unify t s = .ok σ' →
        ∃ ρ : Substitution, ρ.IsRenaming ∧ ∀ v, (σ'.apply (.var v) == ρ.apply (σ.apply (.var v))) = true := by
  have alike := unify_swapped s t
  refine ⟨by rw [alike.isOk_eq], fun σ σ' first second => ?_⟩
  rw [first, second] at alike
  obtain ⟨π, mirrors⟩ := alike.exists_mirrors
  obtain ⟨ρ, images⟩ := mirrors.exists_image_eq
  have sides : EverySide (·.isCanonical = true) [⟨s, t⟩] := List.forall_mem_singleton.mpr ⟨left, right⟩
  have range := range_of_unifyAll Term.hereditary_isCanonical sides first
  refine ⟨ρ, ⟨π, mirrors.sorts, images⟩, fun v => ?_⟩
  have canonical : (σ.image v).isCanonical = true := Substitution.image_hereditary Term.hereditary_isCanonical range v
  rw [Substitution.apply_var, Substitution.apply_var, mirrors.image,
    Substitution.apply_eq_rename π.injective canonical fun w _ => images w]
  exact BEq.rfl

/-- The two orders keep different variables of `x`, `y`, `w`, `v` and of `z`, `u`. On the way `k(x, y)`
collapses, and the sums are compared argument by argument. -/
theorem unify_symmetric_crossing :
    let x : Variable := ⟨⟨0⟩, .default⟩
    let y : Variable := ⟨⟨1⟩, .default⟩
    let z : Variable := ⟨⟨2⟩, .default⟩
    let u : Variable := ⟨⟨3⟩, .default⟩
    let v : Variable := ⟨⟨4⟩, .default⟩
    let w : Variable := ⟨⟨5⟩, .default⟩
    let h : FunctionSymbol := ⟨⟨0⟩, 4, .free, .default, .default⟩
    let plus : FunctionSymbol := ⟨⟨1⟩, 2, .associativeCommutative, .default, .default⟩
    let k : FunctionSymbol := ⟨⟨2⟩, 2, .idempotent, .default, .default⟩
    let s : Term := .node h [.var x, .var y, .node plus [.var x, .var z], .node k [.var x, .var y]]
    let t : Term := .node h [.var y, .var w, .node plus [.var w, .var u], .var v]
    let σ : Substitution := ⟨[(x, .var v), (y, .var v), (z, .var u), (w, .var v)], by decide⟩
    let σ' : Substitution := ⟨[(y, .var x), (w, .var x), (u, .var z), (v, .var x)], by decide⟩
    s.isCanonical = true ∧ t.isCanonical = true ∧ unify s t = .ok σ ∧ unify t s = .ok σ' ∧
      ∃ ρ : Substitution, ρ.IsRenaming ∧ ∀ v, (σ'.apply (.var v) == ρ.apply (σ.apply (.var v))) = true := by
  intro x y z u v w h plus k s t σ σ'
  have left : s.isCanonical = true := by decide
  have right : t.isCanonical = true := by decide
  have first : unify s t = .ok σ := unifyAll_eq_of_evaluate 20 (by cbv)
  have second : unify t s = .ok σ' := unifyAll_eq_of_evaluate 20 (by cbv)
  exact ⟨left, right, first, second, (unify_symmetric left right).2 σ σ' first second⟩

end Equational
