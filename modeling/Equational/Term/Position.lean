import Equational.Term.Application

/-! Positions in a term: paths of argument indices from the root. Replacing below the root
rebuilds every application on the way, so a replacement may change the shape above it. -/

namespace Equational

namespace Term

mutual

/-- All paths into the term, outermost first and then from left to right. -/
def positions : Term → List (List Nat)
  | var _ => [[]]
  | const _ => [[]]
  | node _ args => [] :: positionsFrom 0 args

/-- The paths into arguments numbered from `i`. -/
def positionsFrom (i : Nat) : List Term → List (List Nat)
  | [] => []
  | arg :: args => arg.positions.map (i :: ·) ++ positionsFrom (i + 1) args

end

def subtermAt : List Nat → Term → Option Term
  | [], term => some term
  | i :: path, term => term.arguments[i]? >>= subtermAt path

def replaceAt (replacement : Term) : List Nat → Term → Option Term
  | [], _ => some replacement
  | i :: path, node f args => do
    let child ← replaceAt replacement path (← args[i]?)
    return app f (args.set i child)
  | _ :: _, _ => none

end Term

end Equational
