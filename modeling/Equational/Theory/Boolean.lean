import Equational.Interner
import Equational.Limits
import Equational.Rewriting.System

/-! The booleans as a rewrite system: negation, conjunction and disjunction are computed from
their first argument. -/

namespace Equational

structure Boolean where
  sort : SortId
  truth : Constant
  falsity : Constant
  neg : FunctionSymbol
  andb : FunctionSymbol
  orb : FunctionSymbol
  rules : RewriteSystem

namespace Boolean

def rulesOf (t f n : Term) (neg andb orb : FunctionSymbol) : Except Failure RewriteSystem := do
  let negTrue ← RewriteRule.ofSides (← Term.checked neg [t]) f
  let negFalse ← RewriteRule.ofSides (← Term.checked neg [f]) t
  let andTrue ← RewriteRule.ofSides (← Term.checked andb [t, n]) n
  let andFalse ← RewriteRule.ofSides (← Term.checked andb [f, n]) f
  let orTrue ← RewriteRule.ofSides (← Term.checked orb [t, n]) t
  let orFalse ← RewriteRule.ofSides (← Term.checked orb [f, n]) n
  return .ofList [negTrue, negFalse, andTrue, andFalse, orTrue, orFalse]

/-- Declares the signature. A symbol declared differently before may not fit the rules. -/
def declare (interner : Interner) : Except Failure Boolean × Interner :=
  let (sort, interner) := interner.internSort "bool"
  let (truth, interner) := interner.addConstant "true" sort
  let (falsity, interner) := interner.addConstant "false" sort
  let (neg, interner) := interner.declare "neg" 1 .free sort sort
  let (andb, interner) := interner.declare "andb" 2 .free sort sort
  let (orb, interner) := interner.declare "orb" 2 .free sort sort
  let (n, interner) := interner.addVariable "n" sort
  let boolean := (rulesOf (.const truth) (.const falsity) (.var n) neg andb orb).map
    fun rules => { sort, truth, falsity, neg, andb, orb, rules }
  (boolean, interner)

variable (boolean : Boolean)

def ofBool (value : Bool) : Term :=
  .const (if value then boolean.truth else boolean.falsity)

/-- The value of a term that is a truth constant. -/
def toBool? : Term → Option Bool
  | .const c => if c == boolean.truth then some true else if c == boolean.falsity then some false else none
  | _ => none

def not (t : Term) : Except Failure Term :=
  Term.checked boolean.neg [t]

def and (s t : Term) : Except Failure Term :=
  Term.checked boolean.andb [s, t]

def or (s t : Term) : Except Failure Term :=
  Term.checked boolean.orb [s, t]

def normal (limits : Limits) (t : Term) : Option (Except Failure Term) :=
  boolean.rules.normalize limits.rewriteBound t

end Boolean

end Equational
