import Equational.ExpAC.Signature
import Equational.Proofs.Congruence

/-! The congruence of exponentiation. It is the least equivalence that contains equality of terms
and the two laws and is respected by every application. Instances under equivalent assignments
are equivalent, so an equation may be read under an assignment as a whole. -/

namespace Equational

namespace ExpAC

/-- Equality modulo the laws of exponentiation. Applications are built in canonical shape, as
everywhere. -/
inductive EqualModulo (signature : Signature) : Term → Term → Prop where
  | equal {s t : Term} (same : (s == t) = true) : EqualModulo signature s t
  /-- `exp(exp(x, y), z) = exp(x, f(y, z))` -/
  | power (x y z : Term) :
      EqualModulo signature (signature.power (signature.power x y) z) (signature.power x (signature.combine y z))
  /-- `exp(g(x, y), z) = g(exp(x, z), exp(y, z))` -/
  | distribute (x y z : Term) : EqualModulo signature (signature.power (.app signature.g [x, y]) z)
      (.app signature.g [signature.power x z, signature.power y z])
  | symm {s t : Term} (other : EqualModulo signature s t) : EqualModulo signature t s
  | trans {s t u : Term} (first : EqualModulo signature s t) (second : EqualModulo signature t u) :
      EqualModulo signature s u
  | app (h : FunctionSymbol) {xs ys : List Term} (arguments : List.Forall₂ (EqualModulo signature) xs ys) :
      EqualModulo signature (.app h xs) (.app h ys)

namespace EqualModulo

variable {signature : Signature} {s t u x y z : Term} {m m' : Variable → Term}

theorem of_shape (same : s.shape = t.shape) : EqualModulo signature s t :=
  .equal (Term.beq_iff_shape.mpr same)

theorem refl (t : Term) : EqualModulo signature t t :=
  .of_shape rfl

instance : Trans (EqualModulo signature) (EqualModulo signature) (EqualModulo signature) where
  trans := .trans

theorem pair (h : FunctionSymbol) {x' y' : Term} (first : EqualModulo signature x x')
    (second : EqualModulo signature y y') :
    EqualModulo signature (.app h [x, y]) (.app h [x', y']) :=
  .app h (.cons first (.cons second .nil))

theorem congruence (signature : Signature) : Term.Congruence (EqualModulo signature) where
  of_shape := .of_shape
  symm := .symm
  trans := .trans
  app h _ _ := .app h

theorem instantiate (each : ∀ v ∈ t.vars, EqualModulo signature (m v) (m' v)) :
    EqualModulo signature (t.instantiate m) (t.instantiate m') :=
  (congruence signature).instantiate each

theorem apply {σ : Substitution} (bindings : ∀ v, EqualModulo signature (m v) ((σ.image v).instantiate m))
    (t : Term) :
    EqualModulo signature ((σ.apply t).instantiate m) (t.instantiate m) :=
  (congruence signature).apply bindings t

theorem instantiate_pair (h : FunctionSymbol) (s t : Term) (m : Variable → Term) :
    EqualModulo signature ((Term.app h [s, t]).instantiate m) (.app h [s.instantiate m, t.instantiate m]) :=
  .of_shape (Term.instantiate_app m h [s, t])

theorem combine_comm (laws : signature.f.theory = .associativeCommutative) (s t : Term) :
    EqualModulo signature (signature.combine s t) (signature.combine t s) := by
  have kept : signature.f.theory ≠ .idempotent := by simp [laws]
  have commutative : signature.f.theory.isCommutative = true := by simp [laws, SymbolTheory.isCommutative]
  refine of_shape ?_
  rw [Signature.combine, Signature.combine, Term.shape_app kept, Term.shape_app kept]
  exact Term.shape_node_eq_iff.mpr ⟨rfl, (Term.Aligned.of_perm commutative (List.Perm.swap t s [])).shapes⟩

/-- A power of a power of a base is a power of the base. -/
theorem of_power {s₁ s₂ t₁ t₂ : Term} (base : EqualModulo signature s₁ (signature.power s₂ z))
    (exponent : EqualModulo signature t₂ (signature.combine z t₁)) :
    EqualModulo signature (signature.power s₁ t₁) (signature.power s₂ t₂) := by
  calc EqualModulo signature (signature.power s₁ t₁) (signature.power (signature.power s₂ z) t₁) :=
    .pair _ base (refl t₁)
    EqualModulo signature _ (signature.power s₂ (signature.combine z t₁)) := .power s₂ z t₁
    EqualModulo signature _ (signature.power s₂ t₂) := .pair _ (refl s₂) exponent.symm

/-- A power of a pair is the pair of the powers. -/
theorem of_distribute {v₁ v₂ a b : Term} (base : EqualModulo signature s (.app signature.g [a, b]))
    (first : EqualModulo signature v₁ (signature.power a t))
    (second : EqualModulo signature v₂ (signature.power b t)) :
    EqualModulo signature (signature.power s t) (.app signature.g [v₁, v₂]) := by
  calc EqualModulo signature (signature.power s t) (signature.power (.app signature.g [a, b]) t) :=
    .pair _ base (refl t)
    EqualModulo signature _ (.app signature.g [signature.power a t, signature.power b t]) := .distribute a b t
    EqualModulo signature _ (.app signature.g [v₁, v₂]) := .pair _ first.symm second.symm

end EqualModulo

end ExpAC

namespace Equation

/-- The sides are equal modulo the laws under the assignment. -/
def HoldsModulo (signature : ExpAC.Signature) (e : Equation) (m : Variable → Term) : Prop :=
  ExpAC.EqualModulo signature (e.lhs.instantiate m) (e.rhs.instantiate m)

variable {signature : ExpAC.Signature} {e : Equation} {m : Variable → Term}

theorem Holds.modulo (holds : e.Holds m) : e.HoldsModulo signature m :=
  .of_shape holds

/-- A definition by an application of two terms is about the instances of the two. -/
theorem HoldsModulo.pair {h : FunctionSymbol} {t a b : Term}
    (holds : (⟨t, .app h [a, b]⟩ : Equation).HoldsModulo signature m) :
    ExpAC.EqualModulo signature (t.instantiate m) (.app h [a.instantiate m, b.instantiate m]) :=
  holds.trans (.instantiate_pair h a b m)

end Equation

end Equational
