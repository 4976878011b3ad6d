import Equational.Term.Display

/-! Why a step can fail. Failures are values: a search treats any of them, a reached limit
apart, as the absence of a solution on that path. -/

namespace Equational

inductive Unsatisfiable where
  | notAllowed (v : Variable) (term : Term)
  | noCombination
  | noBranch

/-- What a bounded search ran out of. -/
inductive Limit where
  | frontier (candidates : Nat)
  | basis (vectors limit : Nat)
  | steps (rules : Nat)
  | equations (equations : Nat)

inductive Unsupported where
  | combinerBelowOther
  | severalCombiners
  | openAlien
  | nestedApplication
  | idempotentByConstruction (name : String)

inductive Failure where
  | sortMismatch (expected found : SortId)
  | occursCheck (v : Variable) (term : Term)
  | functionClash (f g : FunctionId)
  | arityMismatch (expected found : Nat)
  | constantClash (c d : ConstantId)
  | functionConstantClash (f : FunctionId) (c : ConstantId)
  | conflictingBinding (v : Variable)
  | unsatisfiable (cause : Unsatisfiable)
  | boundExceeded (bound : Nat)
  | limitReached (limit : Limit)
  | unsupported (cause : Unsupported)
  | unboundRuleVariable (v : Variable)

def Unsatisfiable.message : Unsatisfiable → String
  | notAllowed v term =>
    v.id.label ++ " ↦ " ++ term.display .numbers ++ " is not an allowed instantiation"
  | noCombination => "no combination of Diophantine solutions covers every variable"
  | noBranch => "no E-AC branch succeeded"

def Limit.message : Limit → String
  | frontier n => "diophantine frontier exceeded " ++ toString n ++ " candidates"
  | basis n limit => toString n ++ " basis vectors exceed the limit of " ++ toString limit
  | steps n => "E-AC exceeded " ++ toString n ++ " rule applications"
  | equations n => "E-AC equation set grew beyond " ++ toString n ++ " equations"

def Unsupported.message : Unsupported → String
  | combinerBelowOther => "AC symbol below a non-AC symbol"
  | severalCombiners => "more than one AC symbol"
  | openAlien => "non-ground alien subterm under an AC symbol"
  | nestedApplication => "nested application in a flattened equation"
  | idempotentByConstruction name => name ++ " is idempotent by construction"

/-- Messages name symbols by number: they are read without the names at hand. -/
def Failure.message : Failure → String
  | sortMismatch expected found => "sort mismatch: expected " ++ expected.label ++ ", found " ++ found.label
  | occursCheck v term => "occurs check failed: " ++ v.id.label ++ " occurs in " ++ term.display .numbers
  | functionClash f g => "function clash: " ++ f.label ++ " vs " ++ g.label
  | arityMismatch expected found => "arity mismatch: " ++ toString expected ++ " vs " ++ toString found
  | constantClash c d => "constant clash: " ++ c.label ++ " vs " ++ d.label
  | functionConstantClash f c => "function/constant clash: " ++ f.label ++ " vs " ++ c.label
  | conflictingBinding v => v.id.label ++ " is already bound to a different term"
  | unsatisfiable cause => "unsatisfiable constraints: " ++ cause.message
  | boundExceeded bound => "no normal form within " ++ toString bound ++ " rewrite passes"
  | limitReached limit => "search limit reached: " ++ limit.message
  | unsupported cause => "unsupported problem: " ++ cause.message
  | unboundRuleVariable v => "rewrite rule right-hand side uses unbound variable " ++ v.id.label

end Equational
