import Equational.Equation
import Equational.ExpAC.Signature
import Equational.Json.Fields
import Equational.Json.Reader

/-! The JSON form of symbols, terms and equations. Terms are read as they are written, without
any canonical shape. Reading takes the number of levels of nesting that may still be entered. -/

namespace Equational

open Json (record natural text enter)

/-- Symbols are numbered in 32 bits. -/
def maxIndex : Nat := UInt32.size - 1

def maxArity : Nat := 255

namespace SymbolTheory

def name : SymbolTheory → String
  | free => "Free"
  | associative => "Associative"
  | commutative => "Commutative"
  | associativeCommutative => "AssociativeCommutative"
  | idempotent => "Idempotent"

def ofName? (name : String) : Option SymbolTheory :=
  [free, associative, commutative, associativeCommutative, idempotent].find? (·.name == name)

def toJson (theory : SymbolTheory) : Json :=
  text theory.name

/-- The name alone, or as the key of `null`. -/
def decode (levels : Nat) : Json → Option SymbolTheory
  | .string (some name) => ofName? name
  | .object [(some name, .null)] => do
    let _ ← enter levels
    ofName? name
  | _ => none

end SymbolTheory

def encodeSorted (index : Nat) (sort : SortId) : Json :=
  record [("id", natural index), ("sort", natural sort.index)]

def decodeSorted (levels : Nat) (value : Json) : Option (Nat × SortId) := do
  let _ ← enter levels
  match ← value.allFields? ["id", "sort"] with
  | [id, sort] => return (← id.natural? maxIndex, ⟨← sort.natural? maxIndex⟩)
  | _ => none

namespace FunctionSymbol

def toJson (f : FunctionSymbol) : Json :=
  record [("id", natural f.id.index), ("arity", natural f.arity), ("theory", f.theory.toJson),
    ("domain", natural f.domain.index), ("range", natural f.range.index)]

def decode (levels : Nat) (value : Json) : Option FunctionSymbol := do
  let levels ← enter levels
  match ← value.allFields? ["id", "arity", "theory", "domain", "range"] with
  | [id, arity, theory, domain, range] =>
    return {
      id := ⟨← id.natural? maxIndex⟩
      arity := ← arity.natural? maxArity
      theory := ← SymbolTheory.decode levels theory
      domain := ⟨← domain.natural? maxIndex⟩
      range := ⟨← range.natural? maxIndex⟩ }
  | _ => none

end FunctionSymbol

namespace Term

mutual

def toJson : Term → Json
  | var v => record [("Variable", encodeSorted v.id.index v.sort)]
  | const c => record [("Constant", encodeSorted c.id.index c.sort)]
  | node f args => record [("Function", .array [f.toJson, .array (toJsonList args)])]

def toJsonList : List Term → List Json
  | [] => []
  | arg :: args => arg.toJson :: toJsonList args

end

mutual

/-- A term is an object with one key, which names its kind. -/
def decode (levels : Nat) : Json → Option Term
  | .object [(some kind, content)] =>
    match levels with
    | 0 => none
    | levels + 1 =>
      if kind == "Variable" then
        (decodeSorted levels content).map fun (index, sort) => .var ⟨⟨index⟩, sort⟩
      else if kind == "Constant" then
        (decodeSorted levels content).map fun (index, sort) => .const ⟨⟨index⟩, sort⟩
      else if kind == "Function" then
        match content, levels with
        | .array [symbol, .array args], levels + 2 => do
          let f ← FunctionSymbol.decode (levels + 1) symbol
          let args ← decodeList levels args
          return .node f args
        | _, _ => none
      else none
  | _ => none

def decodeList (levels : Nat) : List Json → Option (List Term)
  | [] => some []
  | value :: rest => do
    let arg ← decode levels value
    let args ← decodeList levels rest
    return arg :: args

end

/-- Reads a term from a value, however deep. -/
def ofJson? (value : Json) : Option Term :=
  decode value.depth value

end Term

namespace Equation

def toJson (e : Equation) : Json :=
  record [("lhs", e.lhs.toJson), ("rhs", e.rhs.toJson)]

def decode (levels : Nat) (value : Json) : Option Equation := do
  let levels ← enter levels
  match ← value.allFields? ["lhs", "rhs"] with
  | [lhs, rhs] => return ⟨← Term.decode levels lhs, ← Term.decode levels rhs⟩
  | _ => none

end Equation

namespace ExpAC.Signature

def toJson (signature : Signature) : Json :=
  record [("exp", signature.exp.toJson), ("g", signature.g.toJson), ("f", signature.f.toJson)]

/-- The arities are not checked. -/
def decode (levels : Nat) (value : Json) : Option Signature := do
  let levels ← enter levels
  match ← value.allFields? ["exp", "g", "f"] with
  | [exp, g, f] =>
    return {
      exp := ← FunctionSymbol.decode levels exp
      g := ← FunctionSymbol.decode levels g
      f := ← FunctionSymbol.decode levels f }
  | _ => none

end ExpAC.Signature

end Equational
