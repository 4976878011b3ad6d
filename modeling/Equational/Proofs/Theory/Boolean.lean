import Equational.Proofs.Rewriting.Interpretation
import Equational.Proofs.Rewriting.Variables
import Equational.Theory.Boolean
import Mathlib.Algebra.Order.Ring.Nat

/-! Truth by rewriting. Every rule keeps the truth value and removes a connective, and a closed formula
that is no constant has a place where a rule applies, so rewriting evaluates formulas in no more steps
than they have connectives. -/

namespace Equational.Boolean

variable (boolean : Boolean)

def connectives : List FunctionSymbol :=
  [boolean.neg, boolean.andb, boolean.orb]

def laws (n : Variable) : List RewriteRule :=
  let t : Term := .const boolean.truth
  let f : Term := .const boolean.falsity
  [⟨.node boolean.neg [t], f⟩, ⟨.node boolean.neg [f], t⟩,
    ⟨.node boolean.andb [t, .var n], .var n⟩, ⟨.node boolean.andb [f, .var n], f⟩,
    ⟨.node boolean.orb [t, .var n], t⟩, ⟨.node boolean.orb [f, .var n], .var n⟩]

/-- Three different free connectives and two different constants of one sort, under the rules. -/
structure IsStandard : Prop where
  free : ∀ f ∈ boolean.connectives, f.theory = .free
  distinct : boolean.connectives.Nodup
  range : ∀ f ∈ boolean.connectives, f.range = boolean.sort
  constants : boolean.truth.sort = boolean.sort ∧ boolean.falsity.sort = boolean.sort
  apart : boolean.falsity ≠ boolean.truth
  rules : ∃ n : Variable, n.sort = boolean.sort ∧ boolean.rules.rules = boolean.laws n

private theorem exists_declare_empty : ∃ boolean, (declare .empty).1 = .ok boolean ∧ boolean.IsStandard := by
  let sort : SortId := ⟨1⟩
  let signature : Boolean :=
    { sort, truth := ⟨⟨0⟩, sort⟩, falsity := ⟨⟨1⟩, sort⟩, neg := ⟨⟨0⟩, 1, .free, sort, sort⟩,
      andb := ⟨⟨1⟩, 2, .free, sort, sort⟩, orb := ⟨⟨2⟩, 2, .free, sort, sort⟩, rules := {} }
  let n : Variable := ⟨⟨0⟩, sort⟩
  refine ⟨{ signature with rules := ⟨signature.laws n⟩ }, by cbv, ?_⟩
  exact ⟨by decide, by decide, by decide, by decide, by decide, n, rfl, rfl⟩

/-- Built from the constants, the connectives and variables of the sort. -/
inductive IsFormula : Term → Prop where
  | truth : IsFormula (.const boolean.truth)
  | falsity : IsFormula (.const boolean.falsity)
  | var {v : Variable} (sorted : v.sort = boolean.sort) : IsFormula (.var v)
  | neg {s : Term} (inner : IsFormula s) : IsFormula (.node boolean.neg [s])
  | and {s t : Term} (left : IsFormula s) (right : IsFormula t) : IsFormula (.node boolean.andb [s, t])
  | or {s t : Term} (left : IsFormula s) (right : IsFormula t) : IsFormula (.node boolean.orb [s, t])

/-- The connectives have their usual meaning. A symbol that is none of them stands for disjunction,
which obeys all laws. -/
def meaning (m : Variable → Bool) : Interpretation Bool where
  ofVariable := m
  ofConstant c := c = boolean.truth
  ofFunction f values :=
    if f = boolean.neg then !values.any id else if f = boolean.andb then values.all id else values.any id

def evaluate (m : Variable → Bool) (t : Term) : Bool :=
  (boolean.meaning m).value t

def count (t : Term) : Nat :=
  t.symbols.countP (· ∈ boolean.connectives)

def counting : Interpretation Nat :=
  .linear (fun f => if f ∈ boolean.connectives then 1 else 0) fun _ => 1

variable {boolean} {m : Variable → Bool} {s t n : Term}

private theorem value_counting (t : Term) : boolean.counting.value t = boolean.count t := by
  induction t with
  | var v | const c => rfl
  | node f args ih =>
    have inside : (args.map boolean.counting.value).sum = (Term.symbolsList args).countP
        (· ∈ boolean.connectives) := by
      induction args with
      | nil => rfl
      | cons arg args rest =>
        obtain ⟨first, others⟩ := List.forall_mem_cons.mp ih
        rw [List.map_cons, List.sum_cons, first, rest others, Term.symbolsList, List.countP_append, count]
    rw [Interpretation.value_node, count, Term.symbols, List.countP_cons, ← inside]
    simp only [counting, Interpretation.linear, decide_eq_true_eq]
    omega

private theorem IsFormula.sort (formula : boolean.IsFormula t) (standard : boolean.IsStandard) :
    t.sort = boolean.sort := by
  have range := standard.range
  simp only [connectives, List.forall_mem_cons] at range
  obtain ⟨neg, andb, orb, _⟩ := range
  cases formula with
  | truth => exact standard.constants.1
  | falsity => exact standard.constants.2
  | var sorted => exact sorted
  | neg => exact neg
  | and => exact andb
  | or => exact orb

private theorem evaluate_truth : boolean.evaluate m (.const boolean.truth) = true := by
  simp [evaluate, meaning]

private theorem evaluate_neg (s : Term) : boolean.evaluate m (.node boolean.neg [s]) = !boolean.evaluate m s := by
  simp [evaluate, meaning]

private theorem weigh_laws (n : Variable) (m : Variable → Nat) :
    ∀ rule ∈ boolean.laws n, (boolean.counting.assign m).value rule.lhs >
      (boolean.counting.assign m).value rule.rhs := by
  simp [laws, counting, Interpretation.linear, connectives]

namespace IsStandard

variable (standard : boolean.IsStandard)
include standard

private theorem different : boolean.andb ≠ boolean.neg ∧ boolean.orb ≠ boolean.neg ∧ boolean.orb ≠ boolean.andb := by
  have distinct := standard.distinct
  simp only [connectives, List.nodup_cons, List.mem_cons, List.not_mem_nil, or_false, not_or] at distinct
  exact ⟨Ne.symm distinct.1.1, Ne.symm distinct.1.2, Ne.symm distinct.2.1⟩

section Truth

private theorem evaluate_falsity : boolean.evaluate m (.const boolean.falsity) = false := by
  simp [evaluate, meaning, standard.apart]

private theorem evaluate_ofBool (value : Bool) : boolean.evaluate m (boolean.ofBool value) = value := by
  cases value with
  | true => exact evaluate_truth
  | false => exact standard.evaluate_falsity

private theorem evaluate_and (s t : Term) :
    boolean.evaluate m (.node boolean.andb [s, t]) = (boolean.evaluate m s && boolean.evaluate m t) := by
  simp [evaluate, meaning, standard.different]

private theorem evaluate_or (s t : Term) :
    boolean.evaluate m (.node boolean.orb [s, t]) = (boolean.evaluate m s || boolean.evaluate m t) := by
  simp [evaluate, meaning, standard.different]

private theorem meaning_of_laws {f : FunctionSymbol} (laws : f.theory ≠ .free) (values : List Bool) :
    (boolean.meaning m).ofFunction f values = values.any id := by
  have outside : f ∉ boolean.connectives := fun member => laws (standard.free f member)
  simp only [connectives, List.mem_cons, List.not_mem_nil, or_false, not_or] at outside
  simp only [meaning, outside, if_false]

private theorem lawful_meaning (m : Variable → Bool) : (boolean.meaning m).Lawful :=
  .of_laws (fun laws xs ys zs => by simp [standard.meaning_of_laws laws])
    (fun laws xs ys same => by rw [standard.meaning_of_laws laws, standard.meaning_of_laws laws, same.any_eq])

private theorem respects_meaning (m : Variable → Bool) : (boolean.meaning m).Respects (· = ·) where
  argument f a b same xs ys := by rw [same]
  collapse idempotent a b same := by
    rw [standard.meaning_of_laws (by simp [idempotent])] at same
    simpa using same

private theorem evaluate_laws (n : Variable) (m : Variable → Bool) :
    ∀ rule ∈ boolean.laws n, boolean.evaluate m rule.lhs = boolean.evaluate m rule.rhs := by
  simp [laws, evaluate_truth, evaluate_neg, standard.evaluate_falsity, standard.evaluate_and, standard.evaluate_or]

end Truth

private theorem lawful_counting : boolean.counting.Lawful :=
  Interpretation.lawful_linear fun f laws => ⟨if_neg fun member => laws (standard.free f member), rfl⟩

private theorem relates {α : Type} {I : Interpretation α} {R : α → α → Prop}
    (sides : ∀ n m, ∀ rule ∈ boolean.laws n, R ((I.assign m).value rule.lhs) ((I.assign m).value rule.rhs)) :
    ∀ rule ∈ boolean.rules.rules, rule.Relates I R := by
  obtain ⟨n, _, rules⟩ := standard.rules
  have leaves : ∀ rule ∈ boolean.laws n, rule.rhs.symbols = [] := by simp [laws, Term.symbols]
  intro rule member
  rw [rules] at member
  refine ⟨fun g occurs => ?_, fun m => sides n m rule member⟩
  rw [leaves rule member] at occurs
  cases occurs

private theorem evaluate_of_normalize {bound : Option Nat} (normal : boolean.rules.normalize bound t = some (.ok n))
    (m : Variable → Bool) :
    boolean.evaluate m n = boolean.evaluate m t :=
  (RewriteSystem.related_of_normalize (standard.lawful_meaning m) (standard.respects_meaning m)
    (standard.relates standard.evaluate_laws) (fun _ => rfl) Eq.trans normal).symm

private theorem count_lt_of_reduces (reduces : boolean.rules.Reduces t s) : boolean.count s < boolean.count t := by
  rw [← value_counting, ← value_counting]
  exact reduces.related (R := (· > ·)) standard.lawful_counting (Interpretation.respects_linear fun _ => Nat.one_pos)
    (standard.relates weigh_laws)

section Formulas

private theorem stable_isFormula : Term.Stable boolean.IsFormula where
  argument formula := by
    cases formula with
    | neg inner => simpa using inner
    | and left right | or left right => simpa using ⟨left, right⟩
  rebuild {h args flat} formula lengths each := by
    have free : h.theory = .free := by
      refine standard.free h ?_
      cases formula <;> simp [connectives]
    rw [Term.app_of_free free]
    cases formula with
    | neg =>
      obtain ⟨s, rfl⟩ := List.length_eq_one_iff.mp lengths
      exact .neg (each s (by simp))
    | and =>
      obtain ⟨s, t, rfl⟩ := List.length_eq_two.mp lengths
      exact .and (each s (by simp)) (each t (by simp))
    | or =>
      obtain ⟨s, t, rfl⟩ := List.length_eq_two.mp lengths
      exact .or (each s (by simp)) (each t (by simp))

private theorem isFormula_of_normalize {bound : Option Nat} (normal : boolean.rules.normalize bound t = some (.ok n))
    (formula : boolean.IsFormula t) :
    boolean.IsFormula n := by
  obtain ⟨x, sorted, rules⟩ := standard.rules
  have right : ∀ rule ∈ boolean.laws x, boolean.IsFormula rule.rhs := by
    simp [laws, IsFormula.truth, IsFormula.falsity, IsFormula.var sorted]
  refine RewriteSystem.normalize_keeps standard.stable_isFormula (fun rule member => ?_) normal formula
  exact rule.keeps_of_rhs standard.stable_isFormula.substitutive (right rule (rules ▸ member))

private theorem isGround_of_normalize {bound : Option Nat} (normal : boolean.rules.normalize bound t = some (.ok n))
    (ground : t.isGround = true) :
    n.isGround = true := by
  obtain ⟨x, _, rules⟩ := standard.rules
  refine RewriteSystem.isGround_of_normalize (fun rule member => ?_) normal ground
  have closed : ∀ rule ∈ boolean.laws x, rule.rhs.vars ⊆ rule.lhs.vars := by simp [laws, Term.vars, Term.varsList]
  exact closed rule (rules ▸ member)

omit standard in
private theorem matchesAt_root {rule : RewriteRule} {bindings : List (Variable × Term)}
    (matched : Term.matchInto rule.lhs t [] = some bindings) : rule.MatchesAt t [] :=
  have ⟨σ, found, _⟩ := Term.exists_match? matched
  ⟨t, σ, rfl, found⟩

private theorem exists_matchesAt_neg (value : Bool) :
    ∃ rule ∈ boolean.rules.rules, rule.MatchesAt (.node boolean.neg [boolean.ofBool value]) [] := by
  obtain ⟨x, _, rules⟩ := standard.rules
  have free := standard.free boolean.neg (by simp [connectives])
  have same (c : Constant) : Term.matchInto (.node boolean.neg [.const c]) (.node boolean.neg [.const c]) [] =
      some [] := by
    simp [Term.matchInto, Term.matchList, free]
  refine ⟨⟨.node boolean.neg [boolean.ofBool value], boolean.ofBool !value⟩, ?_, matchesAt_root (same _)⟩
  cases value <;> simp [rules, laws, ofBool]

private theorem exists_matchesAt_pair {f : FunctionSymbol} (binary : f ∈ [boolean.andb, boolean.orb]) (value : Bool)
    (sorted : t.sort = boolean.sort) : ∃ rule ∈ boolean.rules.rules,
      rule.MatchesAt (.node f [boolean.ofBool value, t]) [] := by
  obtain ⟨x, sort, rules⟩ := standard.rules
  have free := standard.free f (List.mem_cons_of_mem _ binary)
  have same (c : Constant) : Term.matchInto (.node f [.const c, .var x]) (.node f [.const c, t]) [] =
      some [(x, t)] := by
    simp [Term.matchInto, Term.matchList, free, sorted, sort]
  have listed : ∃ rhs, ⟨.node f [boolean.ofBool value, .var x], rhs⟩ ∈ boolean.rules.rules := by
    rw [rules]
    rcases List.mem_pair.mp binary with rfl | rfl
    · cases value with
      | true => exact ⟨.var x, by simp [laws, ofBool]⟩
      | false => exact ⟨.const boolean.falsity, by simp [laws, ofBool]⟩
    · cases value with
      | true => exact ⟨.const boolean.truth, by simp [laws, ofBool]⟩
      | false => exact ⟨.var x, by simp [laws, ofBool]⟩
  obtain ⟨rhs, member⟩ := listed
  exact ⟨_, member, matchesAt_root (same _)⟩

/-- No other closed formula than a constant is irreducible. -/
theorem exists_ofBool_of_irreducible (formula : boolean.IsFormula t) (ground : t.vars = [])
    (irreducible : boolean.rules.Irreducible t) : ∃ value, t = boolean.ofBool value := by
  have pair {f : FunctionSymbol} {s t : Term} (binary : f ∈ [boolean.andb, boolean.orb]) (right : boolean.IsFormula t)
      (inner : s.vars = [] → boolean.rules.Irreducible s → ∃ value, s = boolean.ofBool value)
      (ground : (Term.node f [s, t]).vars = []) : ¬ boolean.rules.Irreducible (.node f [s, t]) := by
    intro irreducible
    simp only [Term.vars, Term.varsList, List.append_nil, List.append_eq_nil_iff] at ground
    obtain ⟨value, rfl⟩ := inner ground.1 (irreducible.argument s (by simp))
    obtain ⟨rule, member, matching⟩ := standard.exists_matchesAt_pair binary value (right.sort standard)
    exact irreducible rule member [] matching
  induction formula with
  | truth => exact ⟨true, rfl⟩
  | falsity => exact ⟨false, rfl⟩
  | var => cases ground
  | neg _ ih =>
    simp only [Term.vars, Term.varsList, List.append_nil] at ground
    obtain ⟨value, rfl⟩ := ih ground (irreducible.argument _ (by simp))
    obtain ⟨rule, member, matching⟩ := standard.exists_matchesAt_neg value
    exact absurd matching (irreducible rule member [])
  | and _ right ih _ => exact absurd irreducible (pair List.mem_cons_self right ih ground)
  | or _ right ih _ => exact absurd irreducible (pair (List.mem_cons_of_mem _ List.mem_cons_self) right ih ground)

end Formulas

end IsStandard

/-- On a new interner, every formula has a normal form, reached in no more steps than it has connectives
and so found under every bound that is no smaller. It has the truth value of the formula whatever the
variables stand for, and for a closed formula it is that value. -/
theorem normalize_formula : ∃ boolean, (declare .empty).1 = .ok boolean ∧ ∀ t, boolean.IsFormula t → ∃ n,
    (∃ k ≤ boolean.count t, boolean.rules.Steps k t n ∧ boolean.rules.Irreducible n) ∧
    boolean.rules.normalize none t = some (.ok n) ∧
    (∀ bound, boolean.count t ≤ bound → boolean.rules.normalize (some bound) t = some (.ok n)) ∧
    (∀ m, boolean.evaluate m n = boolean.evaluate m t) ∧
    (t.isGround = true → ∀ m, n = boolean.ofBool (boolean.evaluate m t)) := by
  obtain ⟨boolean, declared, standard⟩ := exists_declare_empty
  refine ⟨boolean, declared, fun t formula => ?_⟩
  obtain ⟨k, within, n, steps, irreducible⟩ := RewriteSystem.exists_steps_within standard.count_lt_of_reduces t
  have normal : boolean.rules.normalize none t = some (.ok n) :=
    RewriteSystem.normalize_none_eq_ok_iff.mpr ⟨k, steps, irreducible⟩
  have truth := standard.evaluate_of_normalize normal
  refine ⟨n, ⟨k, within, steps, irreducible⟩, normal, fun bound more => ?_, truth, fun ground m => ?_⟩
  · exact RewriteSystem.normalize_some_eq_ok_iff.mpr ⟨k, within.trans more, steps, irreducible⟩
  · have closed : n.vars = [] := List.isEmpty_iff.mp (standard.isGround_of_normalize normal ground)
    obtain ⟨value, rfl⟩ := standard.exists_ofBool_of_irreducible (standard.isFormula_of_normalize normal formula)
      closed irreducible
    rw [← truth m, standard.evaluate_ofBool]

/-- The conjunction vanishes with its second part. What is left of the disjunction is a double negation,
which stays as it is while its variable does. -/
theorem normalize_formula_nested : ∃ boolean, (declare .empty).1 = .ok boolean ∧
    let p : Variable := ⟨⟨0⟩, boolean.sort⟩
    let no : Term := .const boolean.falsity
    let not (s : Term) : Term := .node boolean.neg [s]
    let formula (s : Term) : Term := .node boolean.orb [.node boolean.andb [no, not s], not (not s)]
    boolean.IsFormula (formula (.var p)) ∧ boolean.count (formula (.var p)) = 5 ∧
    (∃ n, boolean.rules.normalize (some 5) (formula (.var p)) = some (.ok n) ∧ ∀ m, boolean.evaluate m n = m p) ∧
    boolean.IsFormula (formula no) ∧ boolean.rules.normalize none (formula no) =
      some (.ok (boolean.ofBool false)) := by
  obtain ⟨boolean, declared, normalizes⟩ := normalize_formula
  obtain ⟨boolean', declared', standard⟩ := exists_declare_empty
  cases declared.symm.trans declared'
  refine ⟨boolean, declared, ?_⟩
  intro p no not formula
  have truth (m : Variable → Bool) (s : Term) : boolean.evaluate m (formula s) = boolean.evaluate m s := by
    simp [formula, not, no, evaluate_neg, standard.evaluate_or, standard.evaluate_and, standard.evaluate_falsity]
  have built {s : Term} (inner : boolean.IsFormula s) : boolean.IsFormula (formula s) :=
    .or (.and .falsity (.neg inner)) (.neg (.neg inner))
  have five : boolean.count (formula (.var p)) = 5 := by
    simp [count, formula, not, no, Term.symbols, Term.symbolsList, connectives]
  obtain ⟨n, _, _, bounded, same, _⟩ := normalizes _ (built (.var (v := p) rfl))
  obtain ⟨n', _, unbounded, _, _, closed⟩ := normalizes _ (built .falsity)
  refine ⟨built (.var rfl), five, ⟨n, bounded 5 five.le, fun m => (same m).trans (truth m _)⟩, built .falsity, ?_⟩
  have constant := closed rfl fun _ => true
  rw [truth, standard.evaluate_falsity] at constant
  rw [unbounded, constant]

end Equational.Boolean
