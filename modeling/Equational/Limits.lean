/-! The limits and switches shared by the procedures. A search that reaches a limit fails; what a
limit does not stop, it does not change. -/

namespace Equational

structure Limits where
  /-- Passes of theory rewriting, which is unbounded without it. -/
  rewriteBound : Option Nat := none
  /-- Usable solution vectors of one linear system. -/
  acMaxBasis : Nat := 20
  /-- Candidates that a completion round may leave. -/
  acMaxFrontier : Nat := 100000
  /-- Whether candidates may be tried in parallel. The answers are the same either way. -/
  acParallel : Bool := true
  /-- Rule applications in one run modulo exponentiation, over all branches. -/
  expMaxSteps : Nat := 2000
  /-- Equations that a branch may hold at once. -/
  expMaxEquations : Nat := 64
  freshStem : String := "v_"
  deriving DecidableEq

end Equational
