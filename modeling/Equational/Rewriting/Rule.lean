import Equational.Term.Position
import Equational.Unification.Matching

/-! Rewrite rules. A rule keeps the sort and brings no variable of its own to the right. -/

namespace Equational

structure RewriteRule where
  lhs : Term
  rhs : Term
  deriving BEq

namespace RewriteRule

/-- The sorts are compared first; then the first variable on the right that the left lacks fails. -/
def ofSides (lhs rhs : Term) : Except Failure RewriteRule :=
  if lhs.sort != rhs.sort then .error (.sortMismatch lhs.sort rhs.sort)
  else
    match rhs.vars.find? (!lhs.contains ·) with
    | some v => .error (.unboundRuleVariable v)
    | none => .ok { lhs, rhs }

def rewriteAt? (rule : RewriteRule) (term : Term) (path : List Nat) : Option Term := do
  let σ ← rule.lhs.match? (← term.subtermAt path)
  Term.replaceAt (σ.apply rule.rhs) path term

/-- Rewrites once, at the outermost and then leftmost position where the rule matches. -/
def rewrite? (rule : RewriteRule) (term : Term) : Option Term :=
  term.positions.findSome? (rule.rewriteAt? term)

def display (naming : Naming) (rule : RewriteRule) : String :=
  rule.lhs.display naming ++ " → " ++ rule.rhs.display naming

end RewriteRule

end Equational
