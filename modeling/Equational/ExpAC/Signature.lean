import Equational.Term.Application

/-! The theory of exponentiation over an associative-commutative combiner. Its three binary
symbols obey `exp(exp(x, y), z) = exp(x, f(y, z))` and
`exp(g(x, y), z) = g(exp(x, z), exp(y, z))`. -/

namespace Equational

namespace ExpAC

structure Signature where
  exp : FunctionSymbol
  g : FunctionSymbol
  /-- Combines exponents. -/
  f : FunctionSymbol
  deriving DecidableEq

namespace Signature

/-- All three symbols must be binary; the first that is not fails. -/
def ofSymbols (exp g f : FunctionSymbol) : Except Failure Signature :=
  match [exp, g, f].find? (·.arity != 2) with
  | some symbol => .error (.arityMismatch 2 symbol.arity)
  | none => .ok { exp, g, f }

def isReserved (signature : Signature) (id : FunctionId) : Bool :=
  id == signature.exp.id || id == signature.g.id || id == signature.f.id

/-- The two arguments of a binary application of the symbol. -/
def partsOf (symbol : FunctionSymbol) : Term → Option (Term × Term)
  | .node h [s, t] => if h.id == symbol.id then some (s, t) else none
  | _ => none

def expParts (signature : Signature) : Term → Option (Term × Term) :=
  partsOf signature.exp

def gParts (signature : Signature) : Term → Option (Term × Term) :=
  partsOf signature.g

def power (signature : Signature) (base exponent : Term) : Term :=
  .app signature.exp [base, exponent]

def combine (signature : Signature) (left right : Term) : Term :=
  .app signature.f [left, right]

end Signature

end ExpAC

end Equational
