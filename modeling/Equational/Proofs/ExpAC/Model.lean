import Equational.Proofs.ExpAC.Congruence
import Equational.Proofs.Term.Interpretation

/-! Models of exponentiation. Terms that are equal modulo the laws have one value in every
interpretation that obeys the laws, so a model tells terms apart that are not equal. -/

namespace Equational.ExpAC

universe w

variable {α : Type w}

/-- The interpretation obeys the laws of the symbols and the two of exponentiation. -/
structure IsModel (signature : Signature) (I : Interpretation α) : Prop extends I.Lawful where
  collapse : ∀ {h : FunctionSymbol}, h.theory = .idempotent → ∀ a, I.ofFunction h [a, a] = a
  power : ∀ a b c, I.ofFunction signature.exp [I.ofFunction signature.exp [a, b], c] =
    I.ofFunction signature.exp [a, I.ofFunction signature.f [b, c]]
  distribute : ∀ a b c, I.ofFunction signature.exp [I.ofFunction signature.g [a, b], c] =
    I.ofFunction signature.g [I.ofFunction signature.exp [a, c], I.ofFunction signature.exp [b, c]]

variable {signature : Signature} {I : Interpretation α} {s t : Term} (model : IsModel signature I)
include model

theorem IsModel.value_app (h : FunctionSymbol) (args : List Term) :
    I.value (.app h args) = I.ofFunction h (args.map I.value) :=
  Interpretation.value_app_of_collapse model.toLawful model.collapse args

private theorem IsModel.value_power (s t : Term) :
    I.value (signature.power s t) = I.ofFunction signature.exp [I.value s, I.value t] :=
  model.value_app signature.exp [s, t]

theorem EqualModulo.value_eq_of_isModel (equal : EqualModulo signature s t) : I.value s = I.value t := by
  refine EqualModulo.rec (motive_1 := fun s t _ => I.value s = I.value t)
    (motive_2 := fun xs ys _ => xs.map I.value = ys.map I.value)
    ?equal ?power ?distribute ?symm ?trans ?app ?nil ?cons equal
  case equal => exact fun same => Interpretation.value_congr model.toLawful (Term.beq_iff_shape.mp same)
  case power =>
    intro x y z
    rw [model.value_power, model.value_power, model.value_power, model.power, Signature.combine, model.value_app]
    rfl
  case distribute =>
    intro x y z
    have pair (s t : Term) : I.value (.app signature.g [s, t]) = I.ofFunction signature.g [I.value s, I.value t] :=
      model.value_app signature.g [s, t]
    rw [model.value_power, pair, model.distribute, pair, model.value_power, model.value_power]
  case symm => exact fun _ same => same.symm
  case trans => exact fun _ _ first second => first.trans second
  case app =>
    intro h xs ys _ same
    rw [model.value_app, model.value_app, same]
  case nil => rfl
  case cons =>
    intro x y xs ys _ _ first rest
    rw [List.map_cons, List.map_cons, first, rest]

end Equational.ExpAC
