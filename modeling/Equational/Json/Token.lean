import Equational.Json.Basic

/-! Scanning JSON text. The scanner reads one character at a time and remembers only what it is
in the middle of, so a text is scanned by a fold over its characters. -/

namespace Equational

namespace Json

inductive Token where
  | leftBrace
  | rightBrace
  | leftBracket
  | rightBracket
  | colon
  | comma
  /-- A value without parts. -/
  | atom (value : Json)

/-- How far a numeral has been read. -/
inductive Numeral where
  | sign
  | zero
  | digits
  | point
  | fraction
  | mark
  | markSign
  | exponent

namespace Numeral

def isComplete : Numeral → Bool
  | zero | digits | fraction | exponent => true
  | _ => false

/-- Where the next character leads, if it belongs to the numeral. -/
def next? (stage : Numeral) (c : Char) : Option Numeral :=
  match stage with
  | sign => if c == '0' then some zero else if c.isDigit then some digits else none
  | zero => afterWhole c
  | digits => if c.isDigit then some digits else afterWhole c
  | point => if c.isDigit then some fraction else none
  | fraction => if c.isDigit then some fraction else afterFraction c
  | mark => if c == '+' || c == '-' then some markSign else if c.isDigit then some exponent else none
  | markSign => if c.isDigit then some exponent else none
  | exponent => if c.isDigit then some exponent else none
where
  afterWhole (c : Char) : Option Numeral :=
    if c == '.' then some point else afterFraction c
  afterFraction (c : Char) : Option Numeral :=
    if c == 'e' || c == 'E' then some mark else none

end Numeral

/-- The value of a complete numeral, given with its last character first. -/
def ofNumeral (stage : Numeral) (reversed : List Char) : Json :=
  let characters := reversed.reverse
  match stage with
  | .zero | .digits =>
    match characters with
    | '-' :: digits => .integer true (Nat.ofDigitChars 10 digits 0)
    | digits => .integer false (Nat.ofDigitChars 10 digits 0)
  | _ => .decimal (String.ofList characters)

/-- The inside of a string: its text so far, last character first, or `none` once an escape stood
for half a character; and a first half that awaits its second. -/
structure Quoted where
  reversed : Option (List Char) := some []
  half : Option Nat := none

namespace Quoted

/-- A first half that meets anything but a second half spoils the string. -/
def settle (quoted : Quoted) : Quoted :=
  if quoted.half.isSome then { reversed := none } else quoted

def push (quoted : Quoted) (c : Char) : Quoted :=
  { reversed := quoted.settle.reversed.map (c :: ·) }

/-- Adds the code unit of an escape. -/
def pushUnit (quoted : Quoted) (unit : Nat) : Quoted :=
  if 0xD800 ≤ unit && unit < 0xDC00 then
    { quoted.settle with half := some unit }
  else if 0xDC00 ≤ unit && unit < 0xE000 then
    match quoted.half with
    | some first =>
      let c := Char.ofNat (0x10000 + (first - 0xD800) * 0x400 + (unit - 0xDC00))
      { reversed := quoted.reversed.map (c :: ·) }
    | none => { reversed := none }
  else
    quoted.push (Char.ofNat unit)

def value (quoted : Quoted) : Option String :=
  quoted.settle.reversed.map fun reversed => String.ofList reversed.reverse

end Quoted

inductive Mode where
  | between
  | word (rest : List Char) (value : Json)
  | numeral (stage : Numeral) (reversed : List Char)
  | quoted (inside : Quoted)
  | escape (inside : Quoted)
  | unit (inside : Quoted) (missing value : Nat)

/-- The mode, and the tokens so far with the last one first. -/
structure Scanner where
  mode : Mode := .between
  tokens : List Token := []

def hexValue? (c : Char) : Option Nat :=
  if c.isDigit then some (c.toNat - '0'.toNat)
  else if 'a' ≤ c && c ≤ 'f' then some (c.toNat - 'a'.toNat + 10)
  else if 'A' ≤ c && c ≤ 'F' then some (c.toNat - 'A'.toNat + 10)
  else none

namespace Scanner

def emit (scanner : Scanner) (token : Token) : Scanner :=
  { tokens := token :: scanner.tokens }

def enter (scanner : Scanner) (mode : Mode) : Scanner :=
  { scanner with mode }

/-- Reads a character that begins a token or stands between tokens. -/
def begin (scanner : Scanner) (c : Char) : Option Scanner :=
  match c with
  | ' ' | '\t' | '\n' | '\r' => some (scanner.enter .between)
  | '\x7b' => some (scanner.emit .leftBrace)
  | '\x7d' => some (scanner.emit .rightBrace)
  | '[' => some (scanner.emit .leftBracket)
  | ']' => some (scanner.emit .rightBracket)
  | ':' => some (scanner.emit .colon)
  | ',' => some (scanner.emit .comma)
  | '"' => some (scanner.enter (.quoted {}))
  | 'n' => some (scanner.enter (.word ['u', 'l', 'l'] .null))
  | 't' => some (scanner.enter (.word ['r', 'u', 'e'] (.bool true)))
  | 'f' => some (scanner.enter (.word ['a', 'l', 's', 'e'] (.bool false)))
  | '-' => some (scanner.enter (.numeral .sign [c]))
  | '0' => some (scanner.enter (.numeral .zero [c]))
  | _ => if c.isDigit then some (scanner.enter (.numeral .digits [c])) else none

def escaped? (c : Char) : Option Char :=
  match c with
  | '"' => some '"'
  | '\\' => some '\\'
  | '/' => some '/'
  | 'b' => some '\x08'
  | 'f' => some '\x0c'
  | 'n' => some '\n'
  | 'r' => some '\r'
  | 't' => some '\t'
  | _ => none

def step (scanner : Scanner) (c : Char) : Option Scanner :=
  match scanner.mode with
  | .between => scanner.begin c
  | .word [] _ => none
  | .word (expected :: rest) value =>
    if c != expected then none
    else if rest.isEmpty then some (scanner.emit (.atom value))
    else some (scanner.enter (.word rest value))
  | .numeral stage reversed =>
    match stage.next? c with
    | some stage => some (scanner.enter (.numeral stage (c :: reversed)))
    | none => if stage.isComplete then (scanner.emit (.atom (ofNumeral stage reversed))).begin c else none
  | .quoted inside =>
    if c == '"' then some (scanner.emit (.atom (.string inside.value)))
    else if c == '\\' then some (scanner.enter (.escape inside))
    else if c.toNat < 0x20 then none
    else some (scanner.enter (.quoted (inside.push c)))
  | .escape inside =>
    if c == 'u' then some (scanner.enter (.unit inside 4 0))
    else (escaped? c).map fun c => scanner.enter (.quoted (inside.push c))
  | .unit inside missing value =>
    (hexValue? c).map fun digit =>
      let value := value * 16 + digit
      if missing ≤ 1 then scanner.enter (.quoted (inside.pushUnit value))
      else scanner.enter (.unit inside (missing - 1) value)

def finish (scanner : Scanner) : Option (List Token) :=
  match scanner.mode with
  | .between => some scanner.tokens.reverse
  | .numeral stage reversed =>
    if stage.isComplete then some (Token.atom (ofNumeral stage reversed) :: scanner.tokens).reverse else none
  | _ => none

end Scanner

def scan (characters : List Char) : Option (List Token) :=
  (characters.foldlM Scanner.step {}).bind Scanner.finish

end Json

end Equational
