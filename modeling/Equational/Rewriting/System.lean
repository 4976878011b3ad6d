import Equational.Rewriting.Rule

/-! Rewrite systems. Rules are tried in the order in which they were added; a rule equal to an
earlier one is not added. -/

namespace Equational

structure RewriteSystem where
  rules : List RewriteRule := []
  deriving BEq

namespace RewriteSystem

def contains (system : RewriteSystem) (rule : RewriteRule) : Bool :=
  system.rules.contains rule

def insert (system : RewriteSystem) (rule : RewriteRule) : RewriteSystem :=
  if system.contains rule then system else ⟨system.rules ++ [rule]⟩

def add (system : RewriteSystem) (rule : RewriteRule) : Bool × RewriteSystem :=
  (!system.contains rule, system.insert rule)

def insertAll (system : RewriteSystem) (rules : List RewriteRule) : RewriteSystem :=
  rules.foldl insert system

def ofList (rules : List RewriteRule) : RewriteSystem :=
  insertAll {} rules

def size (system : RewriteSystem) : Nat :=
  system.rules.length

def isEmpty (system : RewriteSystem) : Bool :=
  system.rules.isEmpty

def step? (system : RewriteSystem) (term : Term) : Option Term :=
  system.rules.findSome? (·.rewrite? term)

/-- The term after at most `steps` steps, if no further step is possible then. -/
def normalForm? (system : RewriteSystem) : (steps : Nat) → Term → Option Term
  | 0, term => if (system.step? term).isNone then some term else none
  | steps + 1, term =>
    match system.step? term with
    | none => some term
    | some next => system.normalForm? steps next

/-- The term at which rewriting comes to an end, however many steps it takes; `none` if it never does. -/
def exhaust? (system : RewriteSystem) (term : Term) : Option Term :=
  match system.step? term with
  | none => some term
  | some next => system |>.exhaust? next
partial_fixpoint

/-- The normal form of the term, reached in at most `bound` steps if a bound is given. Without a bound
a run that never ends has no outcome. -/
def normalize (system : RewriteSystem) (bound : Option Nat) (term : Term) : Option (Except Failure Term) :=
  match bound with
  | some steps =>
    match system.normalForm? steps term with
    | some normal => some (.ok normal)
    | none => some (.error (.boundExceeded steps))
  | none => (system.exhaust? term).map .ok

def display (naming : Naming) (system : RewriteSystem) : String :=
  displayBlock (system.rules.map (RewriteRule.display naming))

end RewriteSystem

end Equational
