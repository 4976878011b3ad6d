import Equational.Json.Basic

/-! The written form of JSON values, on one line or indented by two spaces a level. -/

namespace Equational

namespace Json

def hexDigit (n : Nat) : Char :=
  if n < 10 then Char.ofNat (n + '0'.toNat) else Char.ofNat (n - 10 + 'a'.toNat)

/-- Quotes, backslashes and control characters are escaped, all else stands for itself. -/
def escape (c : Char) : List Char :=
  if c == '"' then ['\\', '"']
  else if c == '\\' then ['\\', '\\']
  else if c == '\x08' then ['\\', 'b']
  else if c == '\t' then ['\\', 't']
  else if c == '\n' then ['\\', 'n']
  else if c == '\x0c' then ['\\', 'f']
  else if c == '\r' then ['\\', 'r']
  else if c.toNat < 0x20 then ['\\', 'u', '0', '0', hexDigit (c.toNat / 16), hexDigit (c.toNat % 16)]
  else [c]

/-- A string between quotes. One without a value is written as the replacement character. -/
def quote (value : Option String) : List Char :=
  '"' :: (value.getD "\ufffd").toList.flatMap escape ++ ['"']

/-- The entries of a container stand on one line, or each on its own line at some level. -/
inductive Layout where
  | line
  | block (level : Nat)

namespace Layout

def deeper : Layout → Layout
  | line => line
  | block level => block (level + 1)

def colon : Layout → List Char
  | line => [':']
  | block _ => [':', ' ']

def newLine : Layout → List Char
  | line => []
  | block level => '\n' :: List.replicate (2 * level) ' '

/-- The entries between brackets. An empty container has nothing between them. -/
def enclose (layout : Layout) (opening closing : Char) (entries : List (List Char)) : List Char :=
  if entries.isEmpty then [opening, closing]
  else
    opening :: [','].intercalate (entries.map (layout.deeper.newLine ++ ·)) ++ layout.newLine ++ [closing]

end Layout

mutual

def print (layout : Layout) : Json → List Char
  | null => ['n', 'u', 'l', 'l']
  | bool true => ['t', 'r', 'u', 'e']
  | bool false => ['f', 'a', 'l', 's', 'e']
  | integer negative magnitude => (if negative then ['-'] else []) ++ Nat.toDigits 10 magnitude
  | decimal literal => literal.toList
  | string value => quote value
  | array elements => layout.enclose '[' ']' (printElements layout.deeper elements)
  | object members => layout.enclose '\x7b' '\x7d' (printMembers layout.deeper members)

def printElements (layout : Layout) : List Json → List (List Char)
  | [] => []
  | value :: rest => value.print layout :: printElements layout rest

def printMembers (layout : Layout) : List (Option String × Json) → List (List Char)
  | [] => []
  | (key, value) :: rest => (quote key ++ layout.colon ++ value.print layout) :: printMembers layout rest

end

def compact (value : Json) : String :=
  String.ofList (value.print .line)

def pretty (value : Json) : String :=
  String.ofList (value.print (.block 0))

end Json

end Equational
