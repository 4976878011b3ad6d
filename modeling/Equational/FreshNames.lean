import Equational.Interner

/-! Fresh variables. A supply numbers its names after a fixed stem and passes over the names
already in use, so a fresh variable never captures another. -/

namespace Equational

structure FreshSupply where
  stem : String := "v_"
  next : Nat := 0

namespace FreshSupply

def name (supply : FreshSupply) (number : Nat) : String :=
  supply.stem ++ toString number

/-- The first unused number at or after `number`, among `fuel` candidates. -/
def search (supply : FreshSupply) (used : NameTable) : Nat → Nat → Nat
  | 0, number => number
  | fuel + 1, number =>
    if used.contains (supply.name number) then supply.search used fuel (number + 1) else number

/-- Distinct numbers give distinct names, so one candidate more than there are names suffices. -/
def unused (supply : FreshSupply) (used : NameTable) : Nat :=
  supply.search used (used.size + 1) supply.next

/-- A variable whose name was never used, with the supply and the names after it. -/
def draw (supply : FreshSupply) (interner : Interner) (sort : SortId) : Variable × FreshSupply × Interner :=
  let number := supply.unused interner.variableTable
  let (v, interner) := interner.addVariable (supply.name number) sort
  (v, { supply with next := number + 1 }, interner)

def issued (supply : FreshSupply) : Nat :=
  supply.next

end FreshSupply

end Equational
