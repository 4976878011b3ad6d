import Equational.Proofs.Matching.Completeness
import Equational.Proofs.Rewriting.NormalForm

/-! Rules that are not added because an equal rule is there. Equality passes over the order and the
nesting of arguments, matching looks at them as they stand, so the rule that is there does the work of
the other only where the two fit. -/

namespace Equational

private theorem RewriteRule.beq_iff {rule rule' : RewriteRule} :
    (rule == rule') = true ↔ (rule.lhs == rule'.lhs) = true ∧ (rule.rhs == rule'.rhs) = true := by
  cases rule
  cases rule'
  exact Bool.and_eq_true_iff

namespace RewriteSystem

variable {system : RewriteSystem} {rule : RewriteRule} {t : Term}

private theorem add_eq_false_iff : (system.add rule).1 = false ↔ ∃ rule' ∈ system.rules, (rule == rule') = true := by
  rw [add, Bool.not_eq_false', contains, List.contains_iff_exists_mem_beq]

/-- The rule that is there matches, at the same position, whatever the rule that is not added matches. -/
theorem matchesAt_of_duplicate {rule' : RewriteRule} {path : List Nat} (same : (rule == rule') = true)
    (fits : rule'.lhs = rule.lhs ∨ Term.Interchangeable rule.lhs rule'.lhs) (matching : rule.MatchesAt t path) :
    rule'.MatchesAt t path := by
  obtain ⟨s, σ, found, matched⟩ := matching
  rcases fits with literal | interchangeable
  · exact ⟨s, σ, found, literal ▸ matched⟩
  · obtain ⟨σ', matched'⟩ := interchangeable.exists_match? (RewriteRule.beq_iff.mp same).1 matched
    exact ⟨s, σ', found, matched'⟩

/-- What a rule that is not added would have rewritten is rewritten by a rule that is there. -/
theorem duplicate_dispensable (duplicate : (system.add rule).1 = false)
    (fit : ∀ rule' ∈ system.rules, (rule == rule') = true → rule'.lhs = rule.lhs ∨
      Term.Interchangeable rule.lhs rule'.lhs)
    (rewritten : (rule.rewrite? t).isSome = true) : ∃ rule' ∈ system.rules, (rule'.rewrite? t).isSome = true := by
  obtain ⟨rule', member, same⟩ := add_eq_false_iff.mp duplicate
  refine ⟨rule', member, ?_⟩
  by_contra unmoved
  have inert : rule'.Inert t := RewriteRule.rewrite?_eq_none_iff.mp (Option.not_isSome_iff_eq_none.mp unmoved)
  have inert' : rule.Inert t := fun path matching =>
    inert path (matchesAt_of_duplicate same (fit rule' member same) matching)
  rw [RewriteRule.rewrite?_eq_none_iff.mpr inert'] at rewritten
  cases rewritten

/-- Both pairs stand in the other order, inside an application of an associative symbol. -/
theorem duplicate_dispensable_pairs :
    let x : Variable := ⟨⟨0⟩, .default⟩
    let y : Variable := ⟨⟨1⟩, .default⟩
    let a : Term := .const ⟨⟨0⟩, .default⟩
    let b : Term := .const ⟨⟨1⟩, .default⟩
    let pair : FunctionSymbol := ⟨⟨0⟩, 2, .commutative, .default, .default⟩
    let word : FunctionSymbol := ⟨⟨1⟩, 2, .associative, .default, .default⟩
    let system : RewriteSystem := .ofList [⟨.node word [.node pair [.var x, b], .node pair [.var x, .var y]], .var y⟩]
    let rule : RewriteRule := ⟨.node word [.node pair [b, .var x], .node pair [.var y, .var x]], .var y⟩
    let t : Term := .node pair [b, .node word [.node pair [a, b], .node pair [b, a]]]
    (system.add rule).1 = false ∧ (rule.rewrite? t).isSome = true ∧
      ∃ rule' ∈ system.rules, (rule'.rewrite? t).isSome = true := by
  intro x y a b pair word system rule t
  have duplicate : (system.add rule).1 = false := by decide
  have rewritten : (rule.rewrite? t).isSome = true := by decide
  have settled : Term.Settled [] [] (.node word [.node pair [.var x, b], .node pair [.var x, .var y]]) := by
    refine ⟨nofun, ⟨fun _ _ => ?first, trivial, trivial, trivial⟩,
      ⟨fun _ _ => ?second, trivial, trivial, trivial⟩, trivial⟩
    case first => exact Term.settles_pair (.refl _) (by simp [b, Term.vars])
    case second => exact Term.settles_of_bound (by simp [Term.varsList])
  have fit : ∀ rule' ∈ system.rules, (rule == rule') = true → rule'.lhs = rule.lhs ∨
      Term.Interchangeable rule.lhs rule'.lhs :=
    List.forall_mem_singleton.mpr fun _ => .inr ⟨.inr (by decide), settled⟩
  exact ⟨duplicate, rewritten, duplicate_dispensable duplicate fit rewritten⟩

/-- The rule that is there has the sum of two terms in the other order, three commutative arguments in
another order, or an application of an associative symbol inside another one; it does not match the left
side of the rule that is not added. -/
theorem duplicate_indispensable :
    let a : Term := .const ⟨⟨0⟩, .default⟩
    let b : Term := .const ⟨⟨1⟩, .default⟩
    let c : Term := .const ⟨⟨2⟩, .default⟩
    let sum : FunctionSymbol := ⟨⟨0⟩, 2, .associativeCommutative, .default, .default⟩
    let triple : FunctionSymbol := ⟨⟨1⟩, 3, .commutative, .default, .default⟩
    let word : FunctionSymbol := ⟨⟨2⟩, 2, .associative, .default, .default⟩
    ∀ sides ∈ [(Term.node sum [a, b], Term.node sum [b, a]), (.node triple [a, b, c], .node triple [b, c, a]),
        (.node word [a, b, c], .node word [.node word [a, b], c])],
      let system : RewriteSystem := .ofList [⟨sides.2, c⟩]
      let rule : RewriteRule := ⟨sides.1, c⟩
      (system.add rule).1 = false ∧ (rule.rewrite? sides.1).isSome = true ∧
        ∀ rule' ∈ system.rules, (rule'.rewrite? sides.1).isSome = false := by
  decide

end RewriteSystem

end Equational
