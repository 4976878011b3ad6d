import Equational.Proofs.Rewriting.Interpretation
import Equational.Theory.Field

/-! Field rewriting terminates. The inverse of a product becomes a longer term, so size does not
decrease; but when an inverse weighs its argument twice and a product weighs more than an inverse does
by itself, every rule makes every term lighter. -/

namespace Equational.Field

variable (field : Field)

def operations : List FunctionSymbol :=
  [field.add, field.mul, field.negate, field.inv]

def laws (x y : Variable) : List RewriteRule :=
  let x : Term := .var x
  let y : Term := .var y
  let zero : Term := .const field.zero
  let one : Term := .const field.one
  let plus (s t : Term) : Term := .node field.add [s, t]
  let times (s t : Term) : Term := .node field.mul [s, t]
  let minus (t : Term) : Term := .node field.negate [t]
  let recip (t : Term) : Term := .node field.inv [t]
  [⟨plus x zero, x⟩, ⟨plus zero x, x⟩, ⟨times x zero, zero⟩, ⟨times zero x, zero⟩, ⟨times one x, x⟩, ⟨times x one, x⟩,
    ⟨plus x (minus x), zero⟩, ⟨plus (minus x) x, zero⟩, ⟨minus (minus x), x⟩, ⟨minus zero, zero⟩,
    ⟨times (minus one) x, minus x⟩, ⟨times x (minus one), minus x⟩,
    ⟨times x (recip x), one⟩, ⟨times (recip x) x, one⟩, ⟨recip (recip x), x⟩,
      ⟨recip (times x y), times (recip y) (recip x)⟩,
    ⟨times x (times (recip x) y), y⟩, ⟨times (recip x) (times x y), y⟩]

/-- Four different free operations and two different constants, under the rules. -/
structure IsStandard : Prop where
  free : ∀ f ∈ field.operations, f.theory = .free
  distinct : field.operations.Nodup
  apart : field.one ≠ field.zero
  rules : ∃ x y : Variable, field.rules.rules = field.laws x y

theorem exists_declare_empty : ∃ field, (declare .empty).1 = .ok field ∧ field.IsStandard := by
  let sort : SortId := ⟨1⟩
  let signature : Field :=
    { sort, zero := ⟨⟨0⟩, sort⟩, one := ⟨⟨1⟩, sort⟩, add := ⟨⟨0⟩, 2, .free, sort, sort⟩,
      mul := ⟨⟨1⟩, 2, .free, sort, sort⟩, negate := ⟨⟨2⟩, 1, .free, sort, sort⟩,
      inv := ⟨⟨3⟩, 1, .free, sort, sort⟩, rules := {} }
  let x : Variable := ⟨⟨0⟩, sort⟩
  let y : Variable := ⟨⟨1⟩, sort⟩
  refine ⟨{ signature with rules := ⟨signature.laws x y⟩ }, by cbv, ?_⟩
  exact ⟨by decide, by decide, by decide, x, y, rfl⟩

/-- A product weighs two and any other operation one, by itself; an inverse weighs its argument twice.
Nothing else has weight. -/
def weighing : Interpretation Nat :=
  .linear (fun f => if f = field.mul then 2 else if f ∈ field.operations then 1 else 0) fun f =>
    if f = field.inv then 2 else 1

variable {field} {t u : Term}

private theorem respects_weighing : field.weighing.Respects (· > ·) := by
  refine Interpretation.respects_linear fun f => ?_
  split <;> omega

namespace IsStandard

variable (standard : field.IsStandard)
include standard

theorem different : (field.add ≠ field.mul ∧ field.add ≠ field.inv) ∧
    (field.mul ≠ field.add ∧ field.mul ≠ field.inv) ∧
    (field.negate ≠ field.mul ∧ field.negate ≠ field.inv) ∧ field.inv ≠ field.mul ∧ field.inv ≠ field.negate := by
  have distinct := standard.distinct
  simp only [operations, List.nodup_cons, List.mem_cons, List.not_mem_nil, or_false, not_or] at distinct
  obtain ⟨⟨addMul, _, addInv⟩, ⟨mulNegate, mulInv⟩, negateInv, _⟩ := distinct
  exact ⟨⟨addMul, addInv⟩, ⟨Ne.symm addMul, mulInv⟩, ⟨Ne.symm mulNegate, negateInv⟩, Ne.symm mulInv,
    Ne.symm negateInv⟩

/-- What holds of the sides under every assignment holds of the rules. No right side has a symbol that collapses. -/
theorem relates {α : Type*} {I : Interpretation α} {R : α → α → Prop}
    (sides : ∀ x y m, ∀ rule ∈ field.laws x y, R ((I.assign m).value rule.lhs) ((I.assign m).value rule.rhs)) :
    ∀ rule ∈ field.rules.rules, rule.Relates I R := by
  obtain ⟨x, y, rules⟩ := standard.rules
  have known : ∀ rule ∈ field.laws x y, ∀ f ∈ rule.rhs.symbols, f ∈ field.operations := by
    simp [laws, Term.symbols, Term.symbolsList, operations]
  intro rule member
  rw [rules] at member
  refine ⟨fun f occurs idempotent => ?_, fun m => sides x y m rule member⟩
  cases idempotent.symm.trans (standard.free f (known rule member f occurs))

private theorem lawful_weighing : field.weighing.Lawful := by
  refine Interpretation.lawful_linear fun f laws => ?_
  have outside : f ∉ field.operations := fun member => laws (standard.free f member)
  have others := outside
  simp only [operations, List.mem_cons, List.not_mem_nil, or_false, not_or] at others
  simp [outside, others]

private theorem weigh_add (a b : Nat) : field.weighing.ofFunction field.add [a, b] = a + b + 1 := by
  simp [weighing, Interpretation.linear, operations, standard.different, Nat.add_comm]

private theorem weigh_mul (a b : Nat) : field.weighing.ofFunction field.mul [a, b] = a + b + 2 := by
  simp [weighing, Interpretation.linear, standard.different, Nat.add_comm]

private theorem weigh_negate (a : Nat) : field.weighing.ofFunction field.negate [a] = a + 1 := by
  simp [weighing, Interpretation.linear, operations, standard.different, Nat.add_comm]

private theorem weigh_inv (a : Nat) : field.weighing.ofFunction field.inv [a] = 2 * a + 1 := by
  simp [weighing, Interpretation.linear, operations, standard.different, Nat.add_comm]

private theorem weigh_laws (x y : Variable) (m : Variable → Nat) :
    ∀ rule ∈ field.laws x y, (field.weighing.assign m).value rule.lhs > (field.weighing.assign m).value rule.rhs := by
  have constant (c : Constant) : field.weighing.ofConstant c = 0 := rfl
  simp [laws, constant, standard.weigh_add, standard.weigh_mul, standard.weigh_negate, standard.weigh_inv]
  omega

theorem weight_lt_of_reduces (reduces : field.rules.Reduces t u) : field.weighing.value u < field.weighing.value t :=
  reduces.related (R := (· > ·)) standard.lawful_weighing respects_weighing (standard.relates standard.weigh_laws)

end IsStandard

/-- On a new interner, no sequence of reductions goes on for ever, whatever rules are used and wherever,
so normalisation without a bound gives every term a normal form. -/
theorem rewriting_terminates : ∃ field, (declare .empty).1 = .ok field ∧ ∀ t,
    (¬ ∃ run : Nat → Term, run 0 = t ∧ ∀ i, field.rules.Reduces (run i) (run (i + 1))) ∧
    ∃ n, field.rules.normalize none t = some (.ok n) := by
  obtain ⟨field, declared, standard⟩ := exists_declare_empty
  refine ⟨field, declared, fun t => ⟨?_, ?_⟩⟩
  · rintro ⟨run, _, reduces⟩
    exact RewriteSystem.no_infinite_reduction standard.weight_lt_of_reduces ⟨run, reduces⟩
  · obtain ⟨k, _, n, steps, irreducible⟩ := RewriteSystem.exists_steps_within standard.weight_lt_of_reduces t
    exact ⟨n, RewriteSystem.normalize_none_eq_ok_iff.mpr ⟨k, steps, irreducible⟩⟩

end Equational.Field
