import Equational.Json.Token

/-! Reading JSON. Tokens are consumed one at a time against a stack of the containers that are
still open, so the depth of a text costs no recursion. -/

namespace Equational

namespace Json

/-- An open container with what it holds so far, last entry first. -/
inductive Frame where
  | array (reversed : List Json)
  | object (reversed : List (Option String × Json)) (key : Option String)

inductive Expectation where
  | value
  /-- A value or the end of an array just opened. -/
  | firstElement
  | key (reversed : List (Option String × Json))
  /-- A key or the end of an object just opened. -/
  | firstKey
  | colon
  /-- A comma or the end of the innermost container. -/
  | separator
  | nothing (result : Json)

structure Reader where
  stack : List Frame := []
  expectation : Expectation := .value

namespace Reader

/-- Hands a complete value to the innermost container. -/
def deliver (stack : List Frame) (value : Json) : Reader :=
  match stack with
  | [] => { expectation := .nothing value }
  | .array reversed :: stack => { stack := .array (value :: reversed) :: stack, expectation := .separator }
  | .object reversed key :: stack =>
    { stack := .object ((key, value) :: reversed) key :: stack, expectation := .separator }

def beginValue (stack : List Frame) : Token → Option Reader
  | .atom value => some (deliver stack value)
  | .leftBracket => some { stack := .array [] :: stack, expectation := .firstElement }
  | .leftBrace => some { stack, expectation := .firstKey }
  | _ => none

def readKey (stack : List Frame) (reversed : List (Option String × Json)) : Token → Option Reader
  | .atom (.string key) => some { stack := .object reversed key :: stack, expectation := .colon }
  | _ => none

def step (reader : Reader) (token : Token) : Option Reader :=
  match reader.expectation, reader.stack, token with
  | .value, stack, token => beginValue stack token
  | .firstElement, .array _ :: stack, .rightBracket => some (deliver stack (.array []))
  | .firstElement, stack, token => beginValue stack token
  | .key reversed, stack, token => readKey stack reversed token
  | .firstKey, stack, .rightBrace => some (deliver stack (.object []))
  | .firstKey, stack, token => readKey stack [] token
  | .colon, stack, .colon => some { stack, expectation := .value }
  | .separator, stack@(.array _ :: _), .comma => some { stack, expectation := .value }
  | .separator, .object reversed _ :: stack, .comma => some { stack, expectation := .key reversed }
  | .separator, .array reversed :: stack, .rightBracket => some (deliver stack (.array reversed.reverse))
  | .separator, .object reversed _ :: stack, .rightBrace => some (deliver stack (.object reversed.reverse))
  | _, _, _ => none

end Reader

/-- The value of a text that is one JSON value and nothing more. -/
def parse? (source : String) : Option Json := do
  let tokens ← scan source.toList
  match (← tokens.foldlM Reader.step {}).expectation with
  | .nothing value => some value
  | _ => none

end Json

end Equational
