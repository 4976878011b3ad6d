import Equational.Failure
import Equational.FreshNames

/-! The state of a search. It survives failure: names drawn and steps taken on a path that
fails remain drawn and taken on the paths tried after it. -/

namespace Equational

structure Session where
  interner : Interner
  fresh : FreshSupply
  steps : Nat := 0

abbrev Search := EStateM Failure Session

namespace Search

def freshVariable (sort : SortId) : Search Variable :=
  fun session =>
    let (v, fresh, interner) := session.fresh.draw session.interner sort
    .ok v { session with interner, fresh }

def ofExcept : Except Failure α → Search α
  | .ok value => pure value
  | .error failure => throw failure

/-- The outcome of an attempt as a value. What the attempt changed stays changed. -/
def attempt (search : Search α) : Search (Except Failure α) :=
  fun session =>
    match search session with
    | .ok value session => .ok (.ok value) session
    | .error failure session => .ok (.error failure) session

/-- Runs a search that draws names on a stem, with no step taken yet. -/
def run (search : Search α) (stem : String) (interner : Interner) : Except Failure α × Interner :=
  match search { interner, fresh := { stem } } with
  | .ok value session => (.ok value, session.interner)
  | .error failure session => (.error failure, session.interner)

end Search

end Equational
