import Equational.ExpAC.Consistency
import Equational.ExpAC.Rule

/-! Applying rules until none applies. Every application counts against one budget for the
whole run, so saturation ends even where the rules alone would not. -/

namespace Equational

namespace ExpAC

structure Setting where
  limits : Limits
  signature : Signature
  /-- The variables of the problem. -/
  scope : List Variable

variable (setting : Setting)

def stepsExhausted : Failure :=
  .limitReached (.steps setting.limits.expMaxSteps)

def tick : Search Unit := fun session =>
  let session := { session with steps := session.steps + 1 }
  if session.steps > setting.limits.expMaxSteps then .error (stepsExhausted setting) session else .ok () session

/-- More rounds than the budget of steps allows. -/
def rounds : Nat :=
  setting.limits.expMaxSteps + 1

def applyFirst (state : State) : List Rule → Search (Option State)
  | [] => return none
  | rule :: rules => do
    match ← state.apply setting.signature rule with
    | some next => return some next
    | none => applyFirst state rules

def validate (state : State) : Search Unit :=
  Search.ofExcept (state.validate setting.limits setting.signature)

/-- Applies rules, the first that applies at each step, until none does. -/
def saturate (rules : List Rule) : Nat → State → Search State
  | 0, _ => throw (stepsExhausted setting)
  | fuel + 1, state => do
    match ← applyFirst setting state rules with
    | none => return state
    | some next =>
      tick setting
      validate setting next
      saturate rules fuel next

def exhaust (rules : List Rule) (state : State) : Search State := do
  validate setting state
  saturate setting rules (rounds setting) state

/-- Applies all rules, in rounds, until a round changes nothing. -/
def settle : Nat → State → Search State
  | 0, _ => throw (stepsExhausted setting)
  | fuel + 1, before => do
    let state ← exhaust setting [.compose] before
    let state ← exhaust setting Rule.mergingAndDistributing state
    let state ← exhaust setting [.eliminate] state
    if state.same before then return state else settle fuel state

def prepare (state : State) : Search State := do
  let state ← exhaust setting [.compose] state
  let state ← exhaust setting [.eliminate] state
  let state ← exhaust setting Rule.merging state
  let state ← exhaust setting [.eliminate] state
  let state ← exhaust setting Rule.merging state
  let state ← exhaust setting [.eliminate] state
  let state ← exhaust setting [.compose] state
  let state ← exhaust setting [.distribute] state
  let state ← exhaust setting Rule.merging state
  exhaust setting [.eliminate] state

end ExpAC

end Equational
