import Equational.Interner
import Equational.Rewriting.Rule

/-! Idempotence by rewriting, for binary symbols that are not idempotent by construction. -/

namespace Equational

def idempotenceRule (f : FunctionSymbol) (interner : Interner) : Except Failure RewriteRule × Interner :=
  if f.arity != 2 then
    (.error (.arityMismatch 2 f.arity), interner)
  else if f.theory == .idempotent then
    (.error (.unsupported (.idempotentByConstruction (interner.functionName f.id))), interner)
  else
    let (x, interner) := interner.addVariable "x" f.domain
    let rule := do
      let lhs ← Term.checked f [.var x, .var x]
      RewriteRule.ofSides lhs (.var x)
    (rule, interner)

end Equational
