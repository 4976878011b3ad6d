import Equational.Proofs.Unification.Demand

/-! Equivalences of terms that every application respects. Equality modulo the laws of the symbols
is the least of them. Instances under equivalent assignments are equivalent, so what an equation
says under an assignment can be carried over equal terms, renamings and bindings in the same
way for all of them. -/

namespace Equational

namespace Term

/-- Equality modulo the laws of the symbols. -/
abbrev Same (s t : Term) : Prop :=
  s.shape = t.shape

/-- An equivalence that contains equality and is respected by every application. -/
structure Congruence (E : Term → Term → Prop) : Prop where
  of_shape : ∀ {s t : Term}, s.shape = t.shape → E s t
  symm : ∀ {s t : Term}, E s t → E t s
  trans : ∀ {s t u : Term}, E s t → E t u → E s u
  app : ∀ (h : FunctionSymbol) {xs ys : List Term}, List.Forall₂ E xs ys → E (.app h xs) (.app h ys)

theorem congruence_same : Congruence Same where
  of_shape same := same
  symm := Eq.symm
  trans := Eq.trans
  app _ _ _ each := app_congr each

namespace Congruence

variable {E : Term → Term → Prop} (congruence : Congruence E) {m m' : Variable → Term} {t : Term}
include congruence

theorem refl (t : Term) : E t t :=
  congruence.of_shape rfl

theorem app_map {h : FunctionSymbol} {xs ys : List Term}
    (each : List.Forall₂ (fun x y => E (x.instantiate m) (y.instantiate m)) xs ys) :
    E (.app h (xs.map (Term.instantiate m))) (.app h (ys.map (Term.instantiate m))) := by
  refine congruence.app h ?_
  rwa [List.forall₂_map_left_iff, List.forall₂_map_right_iff]

/-- Instances under equivalent assignments are equivalent. -/
theorem instantiate (each : ∀ v ∈ t.vars, E (m v) (m' v)) : E (t.instantiate m) (t.instantiate m') := by
  induction t with
  | var v => exact each v (by simp [vars])
  | const c => exact congruence.refl _
  | node h args ih =>
    rw [instantiate_node, instantiate_node]
    refine congruence.app h ?_
    rw [List.forall₂_map_left_iff, List.forall₂_map_right_iff, List.forall₂_same]
    intro arg member
    exact ih arg member fun v occurs => each v (mem_varsList.mpr ⟨arg, member, occurs⟩)

/-- Where bindings hold, applying them changes nothing. -/
theorem apply {σ : Substitution} (bindings : ∀ v, E (m v) ((σ.image v).instantiate m)) (t : Term) :
    E ((σ.apply t).instantiate m) (t.instantiate m) :=
  congruence.trans (congruence.of_shape (Substitution.instantiate_apply σ m t))
    (congruence.symm (congruence.instantiate fun v _ => bindings v))

end Congruence

end Term

namespace Equation

/-- The sides are equivalent under the assignment. -/
def HoldsIn (E : Term → Term → Prop) (e : Equation) (m : Variable → Term) : Prop :=
  E (e.lhs.instantiate m) (e.rhs.instantiate m)

variable {e e' : Equation} {m : Variable → Term}

theorem beq_iff : (e == e') = true ↔ (e.lhs == e'.lhs) = true ∧ (e.rhs == e'.rhs) = true := by
  cases e
  cases e'
  exact Bool.and_eq_true_iff

instance : EquivBEq Equation where
  rfl := beq_iff.mpr ⟨BEq.rfl, BEq.rfl⟩
  symm same := beq_iff.mpr ⟨BEq.symm (beq_iff.mp same).1, BEq.symm (beq_iff.mp same).2⟩
  trans first second := beq_iff.mpr
    ⟨BEq.trans (beq_iff.mp first).1 (beq_iff.mp second).1, BEq.trans (beq_iff.mp first).2 (beq_iff.mp second).2⟩

variable {E : Term → Term → Prop} (congruence : Term.Congruence E)
include congruence

theorem holdsIn_of_isTrivial (trivial : e.isTrivial = true) : e.HoldsIn E m :=
  congruence.of_shape (Term.instantiate_congr (Term.beq_iff_shape.mp trivial) m)

theorem HoldsIn.congr (holds : e.HoldsIn E m) (same : (e == e') = true) : e'.HoldsIn E m := by
  obtain ⟨left, right⟩ := beq_iff.mp same
  have first := congruence.of_shape (Term.instantiate_congr (Term.beq_iff_shape.mp left) m)
  have second := congruence.of_shape (Term.instantiate_congr (Term.beq_iff_shape.mp right) m)
  exact congruence.trans (congruence.symm first) (congruence.trans holds second)

theorem holdsIn_applyEquation_iff {σ : Substitution} (bindings : ∀ v, E (m v) ((σ.image v).instantiate m)) :
    (σ.applyEquation e).HoldsIn E m ↔ e.HoldsIn E m := by
  have left := congruence.apply bindings e.lhs
  have right := congruence.apply bindings e.rhs
  constructor
  · intro holds
    exact congruence.trans (congruence.symm left) (congruence.trans holds right)
  · intro holds
    exact congruence.trans left (congruence.trans holds (congruence.symm right))

end Equation

end Equational
