import Equational.Term.Equality

/-! What a term writes to a hasher. The writing depends on an inner digest, which is used for
the arguments of commutative symbols: their digests are written in sorted order, so that terms
which differ only in the order of such arguments write the same. -/

namespace Equational

def SymbolTheory.code : SymbolTheory → Nat
  | free => 0
  | associative => 1
  | commutative => 2
  | associativeCommutative => 3
  | idempotent => 4

def FunctionSymbol.written (f : FunctionSymbol) : List Nat :=
  [f.id.index, f.arity, f.theory.code, f.domain.index, f.range.index]

namespace Term

mutual

def written (digest : List Nat → UInt64) : Term → List Nat
  | var v => [0, v.id.index, v.sort.index]
  | const c => [1, c.id.index, c.sort.index]
  | node f args =>
    let inner := writtenArguments digest f args
    2 :: f.written ++ inner.length ::
      if f.theory.isCommutative then ((inner.map fun arg => (digest arg).toNat).mergeSort)
      else inner.flatten

def writtenArguments (digest : List Nat → UInt64) (f : FunctionSymbol) : List Term → List (List Nat)
  | [] => []
  | node g inner :: args =>
    if f.theory.isAssociative && g == f then
      writtenArguments digest f inner ++ writtenArguments digest f args
    else
      written digest (node g inner) :: writtenArguments digest f args
  | arg :: args => written digest arg :: writtenArguments digest f args

end

/-- A digest that mixes what is written one number at a time. -/
def mix (items : List Nat) : UInt64 :=
  items.foldl (fun acc item => (acc ^^^ item.toUInt64) * 1099511628211) 14695981039346656037

/-- Equal terms have equal hashes. -/
def hash (term : Term) : UInt64 :=
  mix (term.written mix)

instance : Hashable Term := ⟨hash⟩

end Term

end Equational
