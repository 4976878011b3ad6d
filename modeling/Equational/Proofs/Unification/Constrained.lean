import Equational.Proofs.Unification.Soundness
import Equational.Proofs.Unification.Symmetry
import Equational.Unification.Constrained

/-! Unification under constraints, the other way round. The values are looked up in the allowed sets as
they stand, with the variables that a run happens to keep. So exchanging the two sides makes no
difference only where the allowed sets do not tell variables apart that the unifier takes for one. -/

namespace Equational

namespace Constraints

variable {constraints : Constraints} {σ : Substitution} {allowed : List Term} {v x y : Variable} {t : Term}

private theorem check_eq_ok_iff : constraints.check σ = .ok () ↔ ∀ v, constraints.allows v (σ.image v) = true := by
  have outcome : constraints.check σ = .ok () ↔ ∀ p ∈ σ.bindings, constraints.allows p.1 p.2 = true := by
    simp only [check]
    split
    next v t found =>
      refine iff_of_false (by simp) fun all => ?_
      have rejected := List.find?_some found
      simp [all _ (List.mem_of_find?_eq_some found)] at rejected
    next none => simpa using none
  rw [outcome]
  constructor
  · intro all v
    rcases σ.image_mem_or v with bound | ⟨_, free⟩
    · exact all _ bound
    · simp [free, allows, Term.isVariable]
  · intro all p member
    rw [← Substitution.image_of_mem member]
    exact all p.1

/-- Exchanging the two variables in an allowed term gives an allowed term. -/
def ClosedUnder (allowed : List Term) (x y : Variable) : Prop :=
  ∀ t ∈ allowed, allowed.contains (t.rename (Equiv.swap x y)) = true

instance : Decidable (ClosedUnder allowed x y) :=
  inferInstanceAs (Decidable (∀ t ∈ allowed, allowed.contains (t.rename (Equiv.swap x y)) = true))

private theorem ClosedUnder.contains (closed : ClosedUnder allowed x y) (t : Term) :
    allowed.contains (t.rename (Equiv.swap x y)) = allowed.contains t := by
  have forth {s : Term} (member : allowed.contains s = true) :
      allowed.contains (s.rename (Equiv.swap x y)) = true := by
    obtain ⟨a, inside, same⟩ := List.contains_iff_exists_mem_beq.mp member
    obtain ⟨b, inside', same'⟩ := List.contains_iff_exists_mem_beq.mp (closed a inside)
    rw [← Term.beq_rename (Equiv.swap x y).injective] at same
    exact List.contains_iff_exists_mem_beq.mpr ⟨b, inside', BEq.trans same same'⟩
  have back : (t.rename (Equiv.swap x y)).rename (Equiv.swap x y) = t := by
    rw [Term.rename_rename, ← Equiv.Perm.coe_mul, Equiv.swap_mul_self]
    exact Term.rename_id t
  exact Bool.eq_iff_iff.mpr ⟨fun member => back ▸ forth member, forth⟩

/-- Wherever a variable is bound to an application, the terms allowed for it do not tell apart a
variable of the application and one that is bound to it. -/
def Indifferent (constraints : Constraints) (σ : Substitution) : Prop :=
  ∀ p ∈ σ.bindings, p.2.isVariable = false → ∀ allowed ∈ constraints.entries.lookup p.1,
    ∀ q ∈ σ.bindings, ∀ y ∈ p.2.vars, q.2.asVariable = some y → ClosedUnder allowed q.1 y

instance : Decidable (constraints.Indifferent σ) :=
  inferInstanceAs (Decidable (∀ p ∈ σ.bindings, p.2.isVariable = false → ∀ allowed ∈ constraints.entries.lookup p.1,
    ∀ q ∈ σ.bindings, ∀ y ∈ p.2.vars, q.2.asVariable = some y → ClosedUnder allowed q.1 y))

end Constraints

namespace Unifier

def along (ρ : Equiv.Perm Variable) (vs : List Variable) (v : Variable) : Variable :=
  if v ∈ vs then ρ v else v

namespace Mirrors

variable {ρ : Equiv.Perm Variable} {σ σ' : Substitution} {v y : Variable} {t : Term} {allowed : List Term}
  {constraints : Constraints} (mirrors : Mirrors ρ σ σ') (solved' : ∀ t ∈ σ'.range, ∀ v ∈ t.vars, v ∉ σ'.domain)
include mirrors solved'

private theorem moved (free : v ∉ σ.domain) : ρ v = v ∨ (ρ v, .var v) ∈ σ.bindings := by
  have image := mirrors.image_free solved' free
  rw [mirrors.image] at image
  have value : σ.image (ρ v) = .var v := by
    cases found : σ.image (ρ v) with
    | var w =>
      rw [found, Term.rename_var, Term.var.injEq, ρ.injective.eq_iff] at image
      rw [image]
    | const c | node f args =>
      rw [found] at image
      cases image
  rcases σ.image_mem_or (ρ v) with bound | ⟨_, kept⟩
  · rw [value] at bound
    exact .inr bound
  · rw [value, Term.var.injEq] at kept
    exact .inl kept.symm

private theorem ne_of_free (first : v ∉ σ.domain) (second : y ∉ σ.domain) (different : v ≠ y) : ρ v ≠ y := by
  rintro rfl
  rcases mirrors.moved solved' first with fixed | bound
  · exact different fixed.symm
  · exact second (Substitution.mem_domain_iff.mpr ⟨_, bound⟩)

private theorem rename_along_cons {vs : List Variable} (free : ∀ v ∈ t.vars, v ∉ σ.domain) (here : y ∈ t.vars)
    (new : y ∉ vs) :
    t.rename (along ρ (y :: vs)) = (t.rename (along ρ vs)).rename (Equiv.swap (ρ y) y) := by
  rw [Term.rename_rename]
  refine Term.rename_congr fun v occurs => ?_
  simp only [along, List.mem_cons, Function.comp_apply]
  by_cases equal : v = y
  · simp [equal, new]
  · by_cases inside : v ∈ vs
    · have apart : ρ v ≠ ρ y := fun same => equal (ρ.injective same)
      have apart' : ρ v ≠ y := mirrors.ne_of_free solved' (free v occurs) (free y here) equal
      simp [inside, Equiv.swap_apply_of_ne_of_ne apart apart']
    · have apart : v ≠ ρ y := (mirrors.ne_of_free solved' (free y here) (free v occurs) (Ne.symm equal)).symm
      simp [equal, inside, Equiv.swap_apply_of_ne_of_ne apart equal]

/-- A set of terms that is closed under the exchanges does not tell a value of the one run from the
value of the other: the variables of the value are exchanged one after the other. -/
theorem contains_rename (free : ∀ v ∈ t.vars, v ∉ σ.domain)
    (closed : ∀ q ∈ σ.bindings, ∀ y ∈ t.vars, q.2.asVariable = some y → Constraints.ClosedUnder allowed q.1 y) :
    allowed.contains (t.rename ρ) = allowed.contains t := by
  have partly (vs : List Variable) (within : ∀ y ∈ vs, y ∈ t.vars) :
      allowed.contains (t.rename (along ρ vs)) = allowed.contains t := by
    induction vs with
    | nil =>
      have same : t.rename (along ρ []) = t.rename id := Term.rename_congr (by simp [along])
      rw [same, Term.rename_id]
    | cons y vs ih =>
      obtain ⟨here, later⟩ := List.forall_mem_cons.mp within
      by_cases again : y ∈ vs
      · have same : t.rename (along ρ (y :: vs)) = t.rename (along ρ vs) :=
          Term.rename_congr fun v _ => by by_cases equal : v = y <;> simp [along, equal, again]
        rw [same, ih later]
      · rw [mirrors.rename_along_cons solved' free here again]
        rcases mirrors.moved solved' (free y here) with fixed | bound
        · rw [fixed, Equiv.swap_self, Equiv.coe_refl, Term.rename_id, ih later]
        · rw [(closed _ bound y here rfl).contains, ih later]
  have whole : t.rename (along ρ t.vars) = t.rename ρ := Term.rename_congr fun v occurs => if_pos occurs
  rw [← whole, partly t.vars fun _ => id]

private theorem allows_image (solved : ∀ t ∈ σ.range, ∀ v ∈ t.vars, v ∉ σ.domain)
    (indifferent : constraints.Indifferent σ) (v : Variable) :
    constraints.allows v (σ'.image v) = constraints.allows v (σ.image v) := by
  simp only [Constraints.allows, mirrors.image, Term.isVariable_rename]
  cases application : (σ.image v).isVariable with
  | true => rfl
  | false =>
    have bound : (v, σ.image v) ∈ σ.bindings := by
      refine (σ.image_mem_or v).resolve_right fun unbound => ?_
      rw [unbound.2, Term.isVariable] at application
      cases application
    cases found : constraints.entries.lookup v with
    | none => rfl
    | some allowed =>
      have free : ∀ w ∈ (σ.image v).vars, w ∉ σ.domain := solved _ (Substitution.mem_range_of_mem bound)
      rw [Option.all_some, Option.all_some,
        mirrors.contains_rename solved' free (indifferent _ bound application allowed found)]

end Mirrors

end Unifier

section Swapped

variable {constraints : Constraints} {s t : Term}

private theorem isOk_unifyWithin_iff : (unifyWithin constraints s t).isOk = true ↔
    ∃ σ, unify s t = .ok σ ∧ ∀ v, constraints.allows v (σ.image v) = true := by
  simp only [← Constraints.check_eq_ok_iff]
  change (unify s t >>= fun σ => constraints.check σ >>= fun _ => pure σ).isOk = true ↔ _
  cases unify s t with
  | error failure => exact iff_of_false nofun nofun
  | ok σ =>
    change (constraints.check σ >>= fun _ => pure σ).isOk = true ↔ _
    cases checked : constraints.check σ with
    | error failure =>
      refine iff_of_false nofun ?_
      rintro ⟨_, same, passed⟩
      cases same
      cases checked.symm.trans passed
    | ok => exact iff_of_true rfl ⟨σ, rfl, checked⟩

/-- Exchanging the two sides makes no difference under constraints that do not tell apart variables that become one. -/
theorem unifyWithin_swapped (indifferent : ∀ σ, unify s t = .ok σ → constraints.Indifferent σ) :
    (unifyWithin constraints s t).isOk = (unifyWithin constraints t s).isOk := by
  rw [Bool.eq_iff_iff, isOk_unifyWithin_iff, isOk_unifyWithin_iff]
  have alike := unify_swapped s t
  generalize first : unify s t = outcome at alike
  generalize second : unify t s = outcome' at alike
  cases alike with
  | error => exact iff_of_false nofun nofun
  | @ok ρ σ σ' mirrors =>
    obtain ⟨solved, _⟩ := solved_of_unifyAll first
    obtain ⟨solved', _⟩ := solved_of_unifyAll second
    have same := mirrors.allows_image solved' solved (indifferent σ first)
    simp [same]

end Swapped

/-- Two variables meet before the value is looked up. Both terms that it can come out as are allowed. -/
theorem unifyWithin_swapped_bothAllowed :
    let x : Variable := ⟨⟨0⟩, .default⟩
    let y : Variable := ⟨⟨1⟩, .default⟩
    let z : Variable := ⟨⟨2⟩, .default⟩
    let g : FunctionSymbol := ⟨⟨0⟩, 1, .free, .default, .default⟩
    let h : FunctionSymbol := ⟨⟨1⟩, 2, .free, .default, .default⟩
    let constraints : Constraints := ⟨[(x, [.node g [.var y], .node g [.var z]]), (y, [])]⟩
    let s : Term := .node h [.var y, .var x]
    let t : Term := .node h [.var z, .node g [.var y]]
    (∀ σ, unify s t = .ok σ → constraints.Indifferent σ) ∧ (unifyWithin constraints s t).isOk = true ∧
      (unifyWithin constraints s t).isOk = (unifyWithin constraints t s).isOk := by
  intro x y z g h constraints s t
  have solved : unify s t = .ok ⟨[(y, .var z), (x, .node g [.var z])], by decide⟩ := unifyAll_eq_of_evaluate 4 rfl
  have indifferent : ∀ σ, unify s t = .ok σ → constraints.Indifferent σ := by
    intro σ same
    cases solved.symm.trans same
    decide
  exact ⟨indifferent, by cbv, unifyWithin_swapped indifferent⟩

/-- The set allows `g(z)` but not `g(y)`, and each run keeps another one of the two variables. -/
theorem unifyWithin_depends_on_order :
    let x : Variable := ⟨⟨0⟩, .default⟩
    let y : Variable := ⟨⟨1⟩, .default⟩
    let z : Variable := ⟨⟨2⟩, .default⟩
    let g : FunctionSymbol := ⟨⟨0⟩, 1, .free, .default, .default⟩
    let h : FunctionSymbol := ⟨⟨1⟩, 2, .free, .default, .default⟩
    let constraints : Constraints := ⟨[(x, [.node g [.var z]])]⟩
    let s : Term := .node h [.var y, .var x]
    let t : Term := .node h [.var z, .node g [.var y]]
    (unifyWithin constraints s t).isOk = true ∧ (unifyWithin constraints t s).isOk = false := by
  intro x y z g h constraints s t
  exact ⟨by cbv, by cbv⟩

end Equational
