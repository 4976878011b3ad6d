import Equational.Equation

/-! Equations over an associative-commutative symbol as multisets of arguments. What counts is
how often each argument, or atom, occurs on either side. -/

namespace Equational

namespace AC

mutual

/-- The applied associative-commutative symbols, arguments before the application. -/
def combiners : Term → List FunctionSymbol
  | .var _ => []
  | .const _ => []
  | .node f args =>
    combinersList args ++ if f.theory.isAssociative && f.theory.isCommutative then [f] else []

def combinersList : List Term → List FunctionSymbol
  | [] => []
  | arg :: args => combiners arg ++ combinersList args

end

/-- The one associative-commutative symbol of the equations, if there is any. -/
def combiner? (equations : List Equation) : Except Failure (Option FunctionSymbol) :=
  match equations.flatMap fun e => combiners e.lhs ++ combiners e.rhs with
  | [] => .ok none
  | f :: others => if others.all (·.id == f.id) then .ok (some f) else .error (.unsupported .severalCombiners)

variable (f : FunctionSymbol)

def isRooted (e : Equation) : Bool :=
  e.lhs.isRootedAt f.id || e.rhs.isRootedAt f.id

def occursIn (e : Equation) : Bool :=
  e.lhs.mentions f.id || e.rhs.mentions f.id

/-- A side as a multiset: the arguments of an application of `f`, any other term alone. -/
def members (side : Term) : List Term :=
  if side.isRootedAt f.id then side.arguments else [side]

/-- An application of `f` equals no constant, no application of another symbol, and no
variable that occurs in it. -/
def checkSides (e : Equation) : Except Failure Unit :=
  let (other, rooted) := if e.lhs.isRootedAt f.id then (e.rhs, e.lhs) else (e.lhs, e.rhs)
  match other with
  | .var v => if rooted.contains v then .error (.occursCheck v rooted) else .ok ()
  | .const c => .error (.functionConstantClash f.id c.id)
  | .node g _ => if g.id != f.id then .error (.functionClash f.id g.id) else .ok ()

/-- Atoms are variables and ground terms of the domain sort. -/
def checkAtom (arg : Term) : Except Failure Unit :=
  if arg.sort != f.domain then .error (.sortMismatch f.domain arg.sort)
  else if arg.isVariable || arg.isGround then .ok ()
  else .error (.unsupported .openAlien)

def membersOf (e : Equation) : List Term :=
  members f e.lhs ++ members f e.rhs

/-- How much oftener the atom occurs on the left than on the right. -/
def balance (e : Equation) (atom : Term) : Int :=
  Int.ofNat ((members f e.lhs).count atom) - Int.ofNat ((members f e.rhs).count atom)

/-- The atoms that do not balance out in every equation, in order of first occurrence. -/
def activeAtoms (equations : List Equation) : List Term :=
  (equations.flatMap (membersOf f)).eraseDups.filter fun atom => equations.any fun e => balance f e atom != 0

end AC

end Equational
