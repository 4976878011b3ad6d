import Equational.Term.Basic

/-! Equality modulo the laws of the symbols. Applications of an associative symbol are compared
as flat lists, however their arguments are nested, and applications of a commutative symbol as
multisets. A multiset is compared by consuming it: each argument on the left takes away the
first equal argument on the right. -/

namespace Equational

namespace Term

mutual

/-- What an argument of `f` contributes to a comparison: a nested application of an associative
symbol contributes its own arguments. -/
def comparedArgument (f : FunctionSymbol) : Term → List Term
  | node g inner => if f.theory.isAssociative && g == f then compared f inner else [node g inner]
  | term => [term]

def compared (f : FunctionSymbol) : List Term → List Term
  | [] => []
  | arg :: args => comparedArgument f arg ++ compared f args

end

/-- Removes one element that passes the test: the first such if `anywhere`, else only the head. -/
def take (anywhere : Bool) (test : Term → Bool) : List Term → Option (List Term)
  | [] => none
  | y :: ys =>
    if test y then some ys
    else if anywhere then (take anywhere test ys).map (y :: ·)
    else none

mutual

/-- Equality modulo associativity and commutativity. Idempotence plays no part in it. -/
def eqv : Term → Term → Bool
  | var v, var w => v == w
  | const c, const d => c == d
  | node f xs, node g ys => f == g && (consume f xs (compared g ys)).any List.isEmpty
  | _, _ => false

/-- What is left of the second list when each compared argument of the first has taken away
an equal one: any equal one if order is immaterial, the next one otherwise. -/
def consume (f : FunctionSymbol) : List Term → List Term → Option (List Term)
  | [], ys => some ys
  | node g inner :: xs, ys =>
    if f.theory.isAssociative && g == f then
      (consume f inner ys).bind (consume f xs)
    else
      (take f.theory.isCommutative (eqv (node g inner)) ys).bind (consume f xs)
  | x :: xs, ys => (take f.theory.isCommutative (eqv x) ys).bind (consume f xs)

end

instance : BEq Term := ⟨eqv⟩

end Term

end Equational
