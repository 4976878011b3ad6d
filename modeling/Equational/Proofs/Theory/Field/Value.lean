import Equational.Proofs.Theory.Field
import Mathlib.Algebra.Field.Basic
import Mathlib.Algebra.Field.Rat
import Mathlib.Tactic.NormNum

/-! Field rewriting preserves values. Rules such as the one that cancels a term against its inverse hold
off zero only, so a term is given a value only if no inverse of zero is taken in it. Values of this kind
are passed on from each argument, and a rule never loses one, although it may add inverses and may drop
what had no value. -/

universe w

/-- A field in the sense of algebra, whose name the theory of fields has as well. -/
abbrev ScalarField (K : Type w) := Field K

namespace Equational.Field

section Refines

variable {α : Type w}

def Refines (a b : Option α) : Prop :=
  ∀ k, a = some k → b = some k

private theorem Refines.refl (a : Option α) : Refines a a :=
  fun _ => id

private theorem Refines.trans {a b c : Option α} (first : Refines a b) (second : Refines b c) : Refines a c :=
  fun k value => second k (first k value)

private theorem refines_none (b : Option α) : Refines none b :=
  nofun

private theorem refines_some {a : α} {b : Option α} : Refines (some a) b ↔ b = some a := by
  simp [Refines]

end Refines

variable (field : Field) {K : Type w} [ScalarField K]

/-- Built from the operations, constants of the sort, zero and one among them, and variables of the sort. -/
inductive IsExpression : Term → Prop where
  | zero : IsExpression (.const field.zero)
  | one : IsExpression (.const field.one)
  | const {c : Constant} (sorted : c.sort = field.sort) : IsExpression (.const c)
  | var {v : Variable} (sorted : v.sort = field.sort) : IsExpression (.var v)
  | add {s t : Term} (left : IsExpression s) (right : IsExpression t) : IsExpression (.node field.add [s, t])
  | mul {s t : Term} (left : IsExpression s) (right : IsExpression t) : IsExpression (.node field.mul [s, t])
  | negate {t : Term} (inner : IsExpression t) : IsExpression (.node field.negate [t])
  | inv {t : Term} (inner : IsExpression t) : IsExpression (.node field.inv [t])

/-- What the variables stand for, and the constants other than zero and one. -/
structure Assignment (K : Type w) where
  ofVariable : Variable → K
  ofConstant : Constant → K

open Classical in
noncomputable def constantValue (assignment : Assignment K) (c : Constant) : K :=
  if c = field.zero then 0 else if c = field.one then 1 else assignment.ofConstant c

/-- The operations of the field. Symbols that are none of them, or have another number of arguments,
have the value zero. -/
noncomputable def meaning (assignment : Assignment K) : Interpretation K where
  ofVariable := assignment.ofVariable
  ofConstant := field.constantValue assignment
  ofFunction f
    | [a, b] => if f = field.add then a + b else if f = field.mul then a * b else 0
    | [a] => if f = field.negate then -a else if f = field.inv then a⁻¹ else 0
    | _ => 0

noncomputable def evaluate (assignment : Assignment K) (t : Term) : K :=
  (field.meaning assignment).value t

/-- No inverse of zero is taken anywhere in the term. -/
def IsDefined (assignment : Assignment K) (t : Term) : Prop :=
  ∀ path s, t.subtermAt path = some (.node field.inv [s]) → field.evaluate assignment s ≠ 0

open Classical in
/-- The operations where they have a value. Zero has no inverse, and symbols that are no operations have no value. -/
noncomputable def partialMeaning (assignment : Assignment K) : Interpretation (Option K) where
  ofVariable v := some (assignment.ofVariable v)
  ofConstant c := some (field.constantValue assignment c)
  ofFunction f
    | [some a, some b] => if f = field.add then some (a + b) else if f = field.mul then some (a * b) else none
    | [some a] => if f = field.negate then some (-a) else if f = field.inv ∧ a ≠ 0 then some a⁻¹ else none
    | _ => none

noncomputable def evaluate? (assignment : Assignment K) (t : Term) : Option K :=
  (field.partialMeaning assignment).value t

variable {field} {assignment : Assignment K} {s t n : Term}

private theorem partialMeaning_none (f : FunctionSymbol) (xs ys : List (Option K)) :
    (field.partialMeaning assignment).ofFunction f (xs ++ none :: ys) = none := by
  rcases xs with _ | ⟨x, _ | ⟨x', xs⟩⟩
  · rcases ys with _ | ⟨y, _ | ⟨y', ys⟩⟩ <;> rfl
  · rcases ys with _ | ⟨y, ys⟩
    · cases x <;> rfl
    · cases x <;> rfl
  · cases x <;> cases x' <;> cases xs <;> rfl

private theorem evaluate_add (s t : Term) :
    field.evaluate assignment (.node field.add [s, t]) =
      field.evaluate assignment s + field.evaluate assignment t := by
  simp [evaluate, meaning]

private theorem evaluate_negate (t : Term) :
    field.evaluate assignment (.node field.negate [t]) = -field.evaluate assignment t := by
  simp [evaluate, meaning]

private theorem partial_add (a b : K) : (field.partialMeaning assignment).ofFunction field.add
    [some a, some b] = some (a + b) :=
  if_pos rfl

private theorem partial_negate (a : K) :
    (field.partialMeaning assignment).ofFunction field.negate [some a] = some (-a) :=
  if_pos rfl

private theorem isDefined_var (v : Variable) : field.IsDefined assignment (.var v) := by
  intro path s found
  cases path <;> cases found

private theorem isDefined_const (c : Constant) : field.IsDefined assignment (.const c) := by
  intro path s found
  cases path <;> cases found

private theorem isDefined_node {f : FunctionSymbol} {args : List Term} : field.IsDefined assignment (.node f args) ↔
    (∀ s, f = field.inv → args = [s] → field.evaluate assignment s ≠ 0) ∧
    ∀ arg ∈ args, field.IsDefined assignment arg := by
  constructor
  · intro defined
    refine ⟨fun s root single => defined [] s (by rw [root, single]; rfl), fun arg member path s found => ?_⟩
    obtain ⟨i, place⟩ := List.mem_iff_getElem?.mp member
    refine defined (i :: path) s ?_
    rw [Term.subtermAt, Term.arguments, place]
    exact found
  · rintro ⟨root, each⟩ path s found
    cases path with
    | nil =>
      cases found
      exact root s rfl rfl
    | cons i path =>
      obtain ⟨arg, place, below⟩ := Option.bind_eq_some_iff.mp found
      exact each arg (List.mem_of_getElem? place) path s below

private theorem evaluate?_node {f : FunctionSymbol} {args : List Term}
    (each : ∀ arg ∈ args, field.evaluate? assignment arg = some (field.evaluate assignment arg)) :
    field.evaluate? assignment (.node f args) =
      (field.partialMeaning assignment).ofFunction f (args.map fun arg => some (field.evaluate assignment arg)) := by
  rw [evaluate?, Interpretation.value_node]
  exact congrArg _ (List.map_congr_left each)

namespace IsStandard

variable (standard : field.IsStandard)
include standard

private theorem evaluate_mul (s t : Term) :
    field.evaluate assignment (.node field.mul [s, t]) =
      field.evaluate assignment s * field.evaluate assignment t := by
  simp [evaluate, meaning, standard.different]

private theorem evaluate_inv (t : Term) :
    field.evaluate assignment (.node field.inv [t]) = (field.evaluate assignment t)⁻¹ := by
  simp [evaluate, meaning, standard.different]

private theorem partialMeaning_of_laws {f : FunctionSymbol} (laws : f.theory ≠ .free) (values : List (Option K)) :
    (field.partialMeaning assignment).ofFunction f values = none := by
  have outside : f ∉ field.operations := fun member => laws (standard.free f member)
  simp only [operations, List.mem_cons, List.not_mem_nil, or_false, not_or] at outside
  simp only [partialMeaning]
  split <;> simp [outside]

private theorem lawful_partialMeaning : (field.partialMeaning assignment).Lawful :=
  .of_laws (fun laws _ _ _ => by rw [standard.partialMeaning_of_laws laws, standard.partialMeaning_of_laws laws])
    (fun laws _ _ _ => by rw [standard.partialMeaning_of_laws laws, standard.partialMeaning_of_laws laws])

private theorem respects_partialMeaning : (field.partialMeaning assignment).Respects Refines where
  argument f a b refines xs ys := by
    cases a with
    | none =>
      rw [partialMeaning_none]
      exact refines_none _
    | some k =>
      rw [refines_some.mp refines]
      exact .refl _
  collapse idempotent a b refines := by
    rw [standard.partialMeaning_of_laws (by simp [idempotent])] at refines
    exact refines.trans (refines_none b)

private theorem partial_mul (a b : K) : (field.partialMeaning assignment).ofFunction field.mul [some a, some b] = some
    (a * b) := by
  simp [partialMeaning, standard.different]

private theorem partial_inv {a : K} (off : a ≠ 0) :
    (field.partialMeaning assignment).ofFunction field.inv [some a] = some a⁻¹ := by
  simp [partialMeaning, standard.different, off]

private theorem partial_inv_zero : (field.partialMeaning assignment).ofFunction field.inv [some (0 : K)] = none := by
  simp [partialMeaning, standard.different]

/-- Where the left side of a rule has a value, the right side has the same. -/
theorem refines_laws (x y : Variable) (m : Variable → Option K) : ∀ rule ∈ field.laws x y,
    Refines (((field.partialMeaning assignment).assign m).value rule.lhs)
      (((field.partialMeaning assignment).assign m).value rule.rhs) := by
  have zero : (field.partialMeaning assignment).ofConstant field.zero =
      some 0 := by simp [partialMeaning, constantValue]
  have one : (field.partialMeaning assignment).ofConstant field.one =
      some 1 := by simp [partialMeaning, constantValue, standard.apart]
  have single (f : FunctionSymbol) : (field.partialMeaning assignment).ofFunction f [none] = none :=
    partialMeaning_none f [] []
  have left (f : FunctionSymbol) (b : Option K) : (field.partialMeaning assignment).ofFunction f [none, b] = none :=
    partialMeaning_none f [] [b]
  have right (f : FunctionSymbol) (a : Option K) : (field.partialMeaning assignment).ofFunction f [a, none] = none :=
    partialMeaning_none f [a] []
  have possible (c : Option K) : c = none ∨ c = some 0 ∨ ∃ k ≠ 0, c = some k := by
    cases c with
    | none => exact .inl rfl
    | some k => exact .inr ((eq_or_ne k 0).imp (congrArg some) fun off => ⟨k, off, rfl⟩)
  -- A rule is sound for one of two reasons: its left side has no value, or it is an identity of fields off zero.
  rcases possible (m x) with x | x | ⟨a, offZero, x⟩ <;> rcases possible (m y) with y | y | ⟨b, offZero', y⟩ <;>
    simp [*, laws, partial_add, standard.partial_mul, partial_negate, standard.partial_inv, standard.partial_inv_zero,
    refines_none,
      refines_some]

private theorem exists_of_partialMeaning {f : FunctionSymbol} {values : List (Option K)} {k : K}
    (value : (field.partialMeaning assignment).ofFunction f values = some k) : ∃ ks, values = ks.map some ∧
      (field.meaning assignment).ofFunction f ks = k ∧ (f = field.inv → ∀ a, ks = [a] → a ≠ 0) := by
  simp only [partialMeaning] at value
  split at value
  next a b =>
    refine ⟨[a, b], rfl, ?_, fun _ c unary => by simp at unary⟩
    split at value
    next add => simpa [meaning, add] using value
    next other =>
      obtain ⟨mul, product⟩ := Option.ite_none_right_eq_some.mp value
      simpa [meaning, other, mul, standard.different] using product
  next a =>
    refine ⟨[a], rfl, ?_⟩
    split at value
    next negate =>
      subst negate
      refine ⟨by simpa [meaning] using value, fun inv => absurd inv.symm standard.different.2.2.2.2⟩
    next other =>
      obtain ⟨⟨inv, off⟩, inverse⟩ := Option.ite_none_right_eq_some.mp value
      refine ⟨by simpa [meaning, other, inv, standard.different] using inverse, fun _ c same => ?_⟩
      cases same
      exact off
  next => cases value

private theorem evaluate_of_evaluate? {k : K} (value : field.evaluate? assignment t = some k) :
    field.evaluate assignment t = k ∧ field.IsDefined assignment t := by
  induction t generalizing k with
  | var v => exact ⟨Option.some.inj value, isDefined_var v⟩
  | const c => exact ⟨Option.some.inj value, isDefined_const c⟩
  | node f args ih =>
    rw [evaluate?, Interpretation.value_node] at value
    obtain ⟨ks, values, rfl, off⟩ := standard.exists_of_partialMeaning value
    have each : ∀ arg ∈ args, field.evaluate? assignment arg = some (field.evaluate assignment arg) ∧
        field.IsDefined assignment arg := by
      intro arg member
      obtain ⟨k, _, found⟩ := List.mem_map.mp (values ▸ List.mem_map_of_mem member)
      obtain ⟨rfl, defined⟩ := ih arg member found.symm
      exact ⟨found.symm, defined⟩
    have same : ks = args.map (field.evaluate assignment) := by
      refine List.map_injective_iff.mpr (Option.some_injective K) ?_
      rw [← values, List.map_map]
      exact List.map_congr_left fun arg member => (each arg member).1
    refine ⟨?_, isDefined_node.mpr ⟨?_, fun arg member => (each arg member).2⟩⟩
    · rw [evaluate, Interpretation.value_node, same]
      rfl
    · rintro s rfl rfl
      exact off rfl _ same

private theorem evaluate?_of_isDefined (expression : field.IsExpression t) (defined : field.IsDefined assignment t) :
    field.evaluate? assignment t = some (field.evaluate assignment t) := by
  induction expression with
  | zero | one | const | var => rfl
  | add _ _ left right =>
    have each := (isDefined_node.mp defined).2
    simp only [List.forall_mem_cons] at each
    rw [evaluate?_node (by simp [left each.1, right each.2.1]), evaluate_add]
    exact partial_add _ _
  | mul _ _ left right =>
    have each := (isDefined_node.mp defined).2
    simp only [List.forall_mem_cons] at each
    rw [evaluate?_node (by simp [left each.1, right each.2.1]), standard.evaluate_mul]
    exact standard.partial_mul _ _
  | negate _ inner =>
    have each := (isDefined_node.mp defined).2
    simp only [List.forall_mem_singleton] at each
    rw [evaluate?_node (by simp [inner each]), evaluate_negate]
    exact partial_negate _
  | inv _ inner =>
    obtain ⟨off, each⟩ := isDefined_node.mp defined
    simp only [List.forall_mem_singleton] at each
    rw [evaluate?_node (by simp [inner each]), standard.evaluate_inv]
    exact standard.partial_inv (off _ rfl rfl)

end IsStandard

/-- On a new interner, a defined expression keeps its value in normalisation, under every bound that
suffices and in every field, and the normal form is defined again. -/
theorem normalize_keeps_value : ∃ field, (declare .empty).1 = .ok field ∧
    ∀ (K : Type w) [ScalarField K] (assignment : Assignment K) (t n : Term) (bound : Option Nat),
      field.IsExpression t → field.IsDefined assignment t → field.rules.normalize bound t = some (.ok n) →
        field.evaluate assignment n = field.evaluate assignment t ∧ field.IsDefined assignment n := by
  obtain ⟨field, declared, standard⟩ := exists_declare_empty
  refine ⟨field, declared, fun K _ assignment t n bound expression defined normal => ?_⟩
  have refines : Refines (field.evaluate? assignment t) (field.evaluate? assignment n) :=
    RewriteSystem.related_of_normalize standard.lawful_partialMeaning standard.respects_partialMeaning
      (standard.relates standard.refines_laws) Refines.refl Refines.trans normal
  exact standard.evaluate_of_evaluate? (refines _ (standard.evaluate?_of_isDefined expression defined))

/-- The inverse of a product becomes the product of two inverses, neither of which is one of zero. -/
theorem normalize_keeps_value_reciprocal : ∃ field, (declare .empty).1 = .ok field ∧
    let x : Variable := ⟨⟨0⟩, field.sort⟩
    let two : Term := .node field.add [.const field.one, .const field.one]
    let t : Term := .node field.inv [.node field.mul [.var x, two]]
    let assignment : Assignment ℚ := ⟨fun _ => 3, fun _ => 0⟩
    field.IsExpression t ∧ field.IsDefined assignment t ∧ field.evaluate assignment t = 1 / 6 ∧
    ∃ n, field.rules.normalize none t = some (.ok n) ∧ field.evaluate assignment n = 1 / 6 ∧
      field.IsDefined assignment n := by
  obtain ⟨field, declared, keeps⟩ := normalize_keeps_value
  obtain ⟨field', declared', standard⟩ := exists_declare_empty
  cases declared.symm.trans declared'
  refine ⟨field, declared, ?_⟩
  intro x two t assignment
  have expression : field.IsExpression t := .inv (.mul (.var rfl) (.add .one .one))
  have one : field.evaluate assignment (.const field.one) =
      1 := by simp [evaluate, meaning, constantValue, standard.apart]
  have six : field.evaluate assignment (.node field.mul [.var x, two]) = 6 := by
    rw [standard.evaluate_mul, evaluate_add, one]
    norm_num [assignment, evaluate, meaning]
  have defined : field.IsDefined assignment t := by
    simp [t, two, isDefined_node, isDefined_var, isDefined_const, standard.different, six]
  have value : field.evaluate assignment t = 1 / 6 := by rw [standard.evaluate_inv, six, one_div]
  obtain ⟨k, _, n, steps, irreducible⟩ := RewriteSystem.exists_steps_within standard.weight_lt_of_reduces t
  have normal : field.rules.normalize none t = some (.ok n) :=
    RewriteSystem.normalize_none_eq_ok_iff.mpr ⟨k, steps, irreducible⟩
  obtain ⟨same, stays⟩ := keeps ℚ assignment t n none expression defined normal
  exact ⟨expression, defined, value, n, normal, same.trans value, stays⟩

end Equational.Field
