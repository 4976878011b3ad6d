import Equational.Interner
import Equational.Limits
import Equational.Rewriting.System

/-! Fields as a rewrite system. Addition and multiplication are plain binary symbols, and the
rules cover units, zero, negation and inverses only, so normal forms simplify terms without
deciding their equality. -/

namespace Equational

structure Field where
  sort : SortId
  zero : Constant
  one : Constant
  add : FunctionSymbol
  mul : FunctionSymbol
  negate : FunctionSymbol
  inv : FunctionSymbol
  rules : RewriteSystem

namespace Field

def sides (x y zero one : Term) (add mul negate inv : FunctionSymbol) : Except Failure (List (Term × Term)) := do
  let plus (s t : Term) : Except Failure Term := Term.checked add [s, t]
  let times (s t : Term) : Except Failure Term := Term.checked mul [s, t]
  let minus (t : Term) : Except Failure Term := Term.checked negate [t]
  let recip (t : Term) : Except Failure Term := Term.checked inv [t]
  let units := [
    (← plus x zero, x),
    (← plus zero x, x),
    (← times x zero, zero),
    (← times zero x, zero),
    (← times one x, x),
    (← times x one, x)]
  let negation := [
    (← plus x (← minus x), zero),
    (← plus (← minus x) x, zero),
    (← minus (← minus x), x),
    (← minus zero, zero),
    (← times (← minus one) x, ← minus x),
    (← times x (← minus one), ← minus x)]
  let inverses := [
    (← times x (← recip x), one),
    (← times (← recip x) x, one),
    (← recip (← recip x), x),
    (← recip (← times x y), ← times (← recip y) (← recip x)),
    (← times x (← times (← recip x) y), y),
    (← times (← recip x) (← times x y), y)]
  return units ++ negation ++ inverses

/-- Declares the signature. A symbol declared differently before may not fit the rules. -/
def declare (interner : Interner) : Except Failure Field × Interner :=
  let (sort, interner) := interner.internSort "field"
  let (zero, interner) := interner.addConstant "0" sort
  let (one, interner) := interner.addConstant "1" sort
  let (add, interner) := interner.declare "add" 2 .free sort sort
  let (mul, interner) := interner.declare "mul" 2 .free sort sort
  let (negate, interner) := interner.declare "negate" 1 .free sort sort
  let (inv, interner) := interner.declare "inv" 1 .free sort sort
  let (x, interner) := interner.addVariable "x" sort
  let (y, interner) := interner.addVariable "y" sort
  let field := do
    let sides ← sides (.var x) (.var y) (.const zero) (.const one) add mul negate inv
    let rules ← sides.mapM fun (lhs, rhs) => RewriteRule.ofSides lhs rhs
    return { sort, zero, one, add, mul, negate, inv, rules := .ofList rules }
  (field, interner)

variable (field : Field)

def plus (s t : Term) : Except Failure Term :=
  Term.checked field.add [s, t]

def times (s t : Term) : Except Failure Term :=
  Term.checked field.mul [s, t]

def minus (t : Term) : Except Failure Term :=
  Term.checked field.negate [t]

def recip (t : Term) : Except Failure Term :=
  Term.checked field.inv [t]

def normal (limits : Limits) (t : Term) : Option (Except Failure Term) :=
  field.rules.normalize limits.rewriteBound t

end Field

end Equational
