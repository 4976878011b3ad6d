import Equational.AC.Atom
import Equational.Diophantine.Completion
import Equational.Session
import Equational.Substitution.Apply

/-! Unifiers from solution vectors. A solution vector says how often each atom takes a share of
one new term. A constant is a share by itself and is taken exactly once, so a choice of
vectors is a unifier when it covers every variable and uses up every constant. -/

namespace Equational

namespace AC

structure Share where
  vector : List Nat
  term : Term

/-- The constants to which the vector gives a share, with the number of times. -/
def constantShares (atoms : List Term) (vector : List Nat) : List (Term × Nat) :=
  (atoms.zip vector).filter fun p => !p.1.isVariable && 0 < p.2

/-- At most one constant, and that one once. -/
def isUsable (atoms : List Term) (vector : List Nat) : Bool :=
  match constantShares atoms vector with
  | [] => true
  | [(_, n)] => n == 1
  | _ => false

/-- A vector hands out its constant, or else a fresh variable. -/
def share (f : FunctionSymbol) (atoms : List Term) (vector : List Nat) : Search Share := do
  match constantShares atoms vector with
  | (constant, _) :: _ => return ⟨vector, constant⟩
  | [] => return ⟨vector, .var (← Search.freshVariable f.domain)⟩

/-- The sublists in the order of binary counting, where the first element is the lowest digit;
the second argument lists the elements from the highest digit down, and the third those chosen
so far. What is left and what is chosen must be promising at every step. -/
def choices (promising : List α → List α → Bool) : List α → List α → List (List α)
  | [], chosen => if promising [] chosen then [chosen] else []
  | x :: rest, chosen =>
    if promising (x :: rest) chosen then
      choices promising rest chosen ++ choices promising rest (x :: chosen)
    else []

/-- Every atom has a share in a vector that is chosen or still to come, and no two chosen vectors
share out the same constant. -/
def isPromising (atoms : List Term) (rest chosen : List Share) : Bool :=
  atoms.zipIdx.all fun (atom, column) =>
    let serves (x : Share) := 0 < x.vector.getD column 0
    (chosen.any serves || rest.any serves) && (atom.isVariable || chosen.countP serves ≤ 1)

def received (chosen : List Share) (column : Nat) : List Term :=
  chosen.flatMap fun x => List.replicate (x.vector.getD column 0) x.term

/-- Binds the variables among the atoms to what they receive, from the given column on. -/
def assemble (f : FunctionSymbol) (chosen : List Share) :
    (column : Nat) → List Term → Substitution → Option Substitution
  | _, [], θ => some θ
  | column, .var v :: atoms, θ =>
    match received chosen column with
    | [] => none
    | [t] => (θ.add v t).toOption.bind (assemble f chosen (column + 1) atoms)
    | ts => (θ.add v (.app f ts)).toOption.bind (assemble f chosen (column + 1) atoms)
  | column, _ :: atoms, θ =>
    if (received chosen column).length == 1 then assemble f chosen (column + 1) atoms θ else none

end AC

end Equational
