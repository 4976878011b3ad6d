import Equational.Json.Reader

/-! Reading values out of JSON. A record is written as an object, in which unknown fields are
passed over and no field may occur twice, or as the array of its fields in order. -/

namespace Equational

namespace Json

/-- A whole number up to the bound, written without a sign. -/
def natural? (bound : Nat) : Json → Option Nat
  | .integer false n => if n ≤ bound then some n else none
  | _ => none

def text? : Json → Option String
  | .string value => value
  | _ => none

def bool? : Json → Option Bool
  | .bool value => some value
  | _ => none

/-- The value, or nothing where `null` stands for nothing. -/
def optional? (read : Json → Option α) : Json → Option (Option α)
  | .null => some none
  | value => (read value).map some

/-- The named fields of a record, as far as it has them. An array may leave out the last ones. -/
def fields? (names : List String) : Json → Option (List (Option Json))
  | .object members => do
    let named ← members.mapM fun (key, value) => key.map (·, value)
    if names.any fun name => 1 < named.countP (·.1 == name) then none
    return names.map fun name => List.lookup name named
  | .array elements =>
    if elements.length ≤ names.length then
      some (elements.map some ++ List.replicate (names.length - elements.length) none)
    else none
  | _ => none

/-- The named fields of a record that has them all. -/
def allFields? (names : List String) (value : Json) : Option (List Json) :=
  (fields? names value).bind (·.mapM id)

def fieldOr (default : α) (read : Json → Option α) : Option Json → Option α
  | none => some default
  | some value => read value

/-- One level of nesting less to spend, if any is left. -/
def enter : Nat → Option Nat
  | 0 => none
  | levels + 1 => some levels

/-- The levels of nesting that a text may have where it is read for its content. -/
def textLevels : Nat := 127

def read? (decode : Nat → Json → Option α) (source : String) : Option α :=
  (parse? source).bind (decode textLevels)

end Json

end Equational
