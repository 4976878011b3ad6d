import Equational.Json.Printer
import Equational.Json.Token
import Mathlib.Data.List.Forall2
import Mathlib.Tactic.IntervalCases

/-! Scanning written values. What is written for a value is scanned as the tokens of the value, whatever
comes after it, as long as that does not carry on a numeral. -/

namespace Equational

namespace Json

/-- A value that can be written down without loss: its numerals are whole numbers, and its strings stand for text. -/
inductive Plain : Json → Prop where
  | null : Plain null
  | bool (value : Bool) : Plain (bool value)
  | integer (negative : Bool) (magnitude : Nat) : Plain (integer negative magnitude)
  | text (value : String) : Plain (text value)
  | array (elements : List Json) (each : ∀ value ∈ elements, Plain value) : Plain (array elements)
  | record (members : List (String × Json)) (each : ∀ member ∈ members, Plain member.2) : Plain (record members)

mutual

def tokens : Json → List Token
  | array elements => .leftBracket :: [.comma].intercalate (tokensOfElements elements) ++ [.rightBracket]
  | object members => .leftBrace :: [.comma].intercalate (tokensOfMembers members) ++ [.rightBrace]
  | value => [.atom value]

def tokensOfElements : List Json → List (List Token)
  | [] => []
  | value :: rest => value.tokens :: tokensOfElements rest

def tokensOfMembers : List (Option String × Json) → List (List Token)
  | [] => []
  | (key, value) :: rest => (.atom (.string key) :: .colon :: value.tokens) :: tokensOfMembers rest

end

def scanFrom (scanner : Scanner) (characters : List Char) : Option (List Token) :=
  (characters.foldlM Scanner.step scanner).bind Scanner.finish

def Detached (rest : List Char) : Prop :=
  ∀ c ∈ rest.head?, c.isDigit = false ∧ c ≠ '.' ∧ c ≠ 'e' ∧ c ≠ 'E'

/-- The text is scanned as the tokens, before anything that does not carry on a numeral. -/
def Scans (characters : List Char) (tokens : List Token) : Prop :=
  ∀ done rest, Detached rest →
    scanFrom { tokens := done } (characters ++ rest) = scanFrom { tokens := tokens.reverse ++ done } rest

private theorem scanFrom_cons (scanner : Scanner) (c : Char) (rest : List Char) :
    scanFrom scanner (c :: rest) = (scanner.step c).bind (scanFrom · rest) := by
  rw [scanFrom, List.foldlM_cons]
  exact Option.bind_assoc ..

section Text

abbrev inside (reversed : List Char) (done : List Token) : Scanner :=
  { mode := .quoted { reversed := some reversed }, tokens := done }

variable {reversed : List Char} {done : List Token}

private theorem hexValue?_hexDigit : ∀ n < 16, hexValue? (hexDigit n) = some n := by
  decide

private theorem scanFrom_control {c : Char} (control : c.toNat < 0x20) (rest : List Char) :
    scanFrom (inside reversed done)
      ('\\' :: 'u' :: '0' :: '0' :: hexDigit (c.toNat / 16) :: hexDigit (c.toNat % 16) :: rest) =
        scanFrom (inside (c :: reversed) done) rest := by
  have first := hexValue?_hexDigit (c.toNat / 16) (by omega)
  have second := hexValue?_hexDigit (c.toNat % 16) (Nat.mod_lt _ (by decide))
  have unit : c.toNat / 16 * 16 + c.toNat % 16 = c.toNat := Nat.div_add_mod' ..
  have pushed : Quoted.pushUnit { reversed := some reversed } c.toNat = { reversed := some (c :: reversed) } := by
    rw [Quoted.pushUnit, if_neg (by simp; omega), if_neg (by simp; omega), Char.ofNat_toNat]
    rfl
  -- The backslash, the letter and the two zeros are read.
  change scanFrom { mode := .unit { reversed := some reversed } 2 0, tokens := done } _ = _
  rw [scanFrom_cons, Scanner.step]
  dsimp only
  rw [first, Option.map_some, Option.bind_some, if_neg (by decide), Nat.zero_mul, Nat.zero_add, scanFrom_cons,
    Scanner.step]
  dsimp only [Scanner.enter]
  rw [second, Option.map_some, Option.bind_some, if_pos (by decide), unit, pushed]

private theorem scanFrom_escape (c : Char) (rest : List Char) :
    scanFrom (inside reversed done) (escape c ++ rest) = scanFrom (inside (c :: reversed) done) rest := by
  by_cases named : c = '"' ∨ c = '\\' ∨ c = '\x08' ∨ c = '\t' ∨ c = '\n' ∨ c = '\x0c' ∨ c = '\r'
  · rcases named with rfl | rfl | rfl | rfl | rfl | rfl | rfl <;> rfl
  · simp only [not_or] at named
    obtain ⟨quote, backslash, backspace, tab, newLine, formFeed, carriageReturn⟩ := named
    simp only [escape, beq_iff_eq, quote, backslash, backspace, tab, newLine, formFeed, carriageReturn, if_false]
    split
    next control => exact scanFrom_control control rest
    next control =>
      rw [List.singleton_append, scanFrom_cons, Scanner.step]
      simp only [beq_iff_eq, quote, backslash, control, if_false]
      rfl

private theorem scanFrom_escapes (characters reversed rest : List Char) :
    scanFrom (inside reversed done) (characters.flatMap escape ++ rest) = scanFrom
      (inside (characters.reverse ++ reversed) done) rest := by
  induction characters generalizing reversed with
  | nil => rfl
  | cons c characters ih =>
    rw [List.flatMap_cons, List.append_assoc, scanFrom_escape, ih, List.reverse_cons, List.append_assoc]
    rfl

private theorem scans_quote (value : String) : Scans (quote (some value)) [.atom (text value)] := by
  intro done rest _
  have read := @scanFrom_escapes done value.toList [] ('"' :: rest)
  rw [List.append_nil] at read
  have opened : quote (some value) ++ rest = '"' :: (value.toList.flatMap escape ++ '"' :: rest) := by
    simp [quote]
  rw [opened]
  change scanFrom (inside [] done) _ = _
  rw [read]
  change scanFrom { tokens := .atom (string (some (String.ofList value.toList.reverse.reverse))) :: done } rest = _
  rw [List.reverse_reverse, String.ofList_toList]
  rfl

end Text

section Numerals

variable {done : List Token}

/-- How far a numeral has been read that stands for the number. -/
def stageOf : Nat → Numeral
  | 0 => .zero
  | _ + 1 => .digits

private theorem exists_toDigits {n : Nat} (positive : 0 < n) :
    ∃ d rest, 0 < d ∧ d < 10 ∧ Nat.toDigits 10 n = Nat.digitChar d :: rest := by
  induction n using Nat.strongRecOn with
  | ind n ih =>
    by_cases small : n < 10
    · exact ⟨n, [], positive, small, Nat.toDigits_of_lt_base small⟩
    · obtain ⟨d, rest, above, below, first⟩ := ih (n / 10) (by omega) (by omega)
      refine ⟨d, rest ++ [Nat.digitChar (n % 10)], above, below, ?_⟩
      rw [Nat.toDigits_of_base_le (by decide) (by omega), first, List.cons_append]

private theorem isDigit_of_toDigits {n : Nat} {c : Char} {rest : List Char} (first : Nat.toDigits 10 n = c :: rest) :
    ∀ c ∈ rest, c.isDigit = true := by
  intro d member
  exact Nat.isDigit_of_mem_toDigits (by decide) (by decide) (first ▸ List.mem_cons_of_mem c member)

private theorem scanFrom_moreDigits {digits : List Char} (each : ∀ c ∈ digits, c.isDigit = true)
    (reversed rest : List Char) :
    scanFrom { mode := .numeral .digits reversed, tokens := done } (digits ++ rest) =
      scanFrom { mode := .numeral .digits (digits.reverse ++ reversed), tokens := done } rest := by
  induction digits generalizing reversed with
  | nil => rfl
  | cons c digits ih =>
    obtain ⟨digit, others⟩ := List.forall_mem_cons.mp each
    rw [List.cons_append, scanFrom_cons, Scanner.step]
    simp only [Numeral.next?, digit, if_true]
    rw [Option.bind_some, Scanner.enter, ih others, List.reverse_cons, List.append_assoc]
    rfl

private theorem scanFrom_toDigits (done : List Token) (n : Nat) (rest : List Char) :
    scanFrom { tokens := done } (Nat.toDigits 10 n ++ rest) =
        scanFrom { mode := .numeral (stageOf n) (Nat.toDigits 10 n).reverse, tokens := done } rest ∧
      scanFrom { mode := .numeral .sign ['-'], tokens := done } (Nat.toDigits 10 n ++ rest) =
        scanFrom { mode := .numeral (stageOf n) ((Nat.toDigits 10 n).reverse ++ ['-']), tokens := done } rest := by
  cases n with
  | zero => exact ⟨rfl, rfl⟩
  | succ n =>
    obtain ⟨d, digits, above, below, first⟩ := exists_toDigits (Nat.succ_pos n)
    have each := isDigit_of_toDigits first
    have started : scanFrom { tokens := done } (Nat.digitChar d :: (digits ++ rest)) =
        scanFrom { mode := .numeral .digits [Nat.digitChar d], tokens := done } (digits ++ rest) ∧
      scanFrom { mode := .numeral .sign ['-'], tokens := done } (Nat.digitChar d :: (digits ++ rest)) =
        scanFrom { mode := .numeral .digits [Nat.digitChar d, '-'], tokens := done } (digits ++ rest) := by
      interval_cases d <;> exact ⟨rfl, rfl⟩
    rw [first, List.cons_append, started.1, started.2, scanFrom_moreDigits each, scanFrom_moreDigits each,
      List.reverse_cons, List.append_assoc]
    exact ⟨rfl, rfl⟩

private theorem scanFrom_numeral (n : Nat) (reversed : List Char) {rest : List Char} (detached : Detached rest) :
    scanFrom { mode := .numeral (stageOf n) reversed, tokens := done } rest =
      scanFrom { tokens := .atom (ofNumeral (stageOf n) reversed) :: done } rest := by
  cases rest with
  | nil => cases n <;> rfl
  | cons c rest =>
    obtain ⟨digit, point, small, capital⟩ := detached c rfl
    have ends : (stageOf n).next? c = none := by
      cases n <;> simp [stageOf, Numeral.next?, Numeral.next?.afterWhole, Numeral.next?.afterFraction, digit, point,
        small, capital]
    have complete : (stageOf n).isComplete = true := by cases n <;> rfl
    rw [scanFrom_cons, scanFrom_cons, Scanner.step]
    simp only [ends, complete, if_true]
    rfl

private theorem ofNumeral_toDigits (n : Nat) :
    ofNumeral (stageOf n) (Nat.toDigits 10 n).reverse = integer false n ∧
      ofNumeral (stageOf n) ((Nat.toDigits 10 n).reverse ++ ['-']) = integer true n := by
  have value : Nat.ofDigitChars 10 (Nat.toDigits 10 n) 0 = n := Nat.ofDigitChars_toDigits (by decide) (by decide)
  have unsigned : ∀ digits, Nat.toDigits 10 n ≠ '-' :: digits := by
    intro digits same
    have digit := Nat.isDigit_of_mem_toDigits (by decide) (by decide) (same ▸ List.mem_cons_self)
    exact absurd digit (by decide)
  constructor
  · cases n <;> simp only [stageOf, ofNumeral, List.reverse_reverse, value]
  · cases n <;> simp only [stageOf, ofNumeral, List.reverse_append, List.reverse_reverse, List.reverse_singleton,
      List.singleton_append, value]

private theorem scans_integer (negative : Bool) (n : Nat) :
    Scans ((if negative then ['-'] else []) ++ Nat.toDigits 10 n) [.atom (integer negative n)] := by
  intro done rest detached
  obtain ⟨positive, signed⟩ := scanFrom_toDigits done n rest
  obtain ⟨valuePositive, valueSigned⟩ := ofNumeral_toDigits n
  cases negative with
  | false =>
    change scanFrom _ (Nat.toDigits 10 n ++ rest) = _
    rw [positive, scanFrom_numeral n _ detached, valuePositive]
    rfl
  | true =>
    change scanFrom { mode := .numeral .sign ['-'], tokens := done } (Nat.toDigits 10 n ++ rest) = _
    rw [signed, scanFrom_numeral n _ detached, valueSigned]
    rfl

end Numerals

section Containers

variable {done : List Token}

private theorem scanFrom_spaces (n : Nat) (rest : List Char) :
    scanFrom { tokens := done } (List.replicate n ' ' ++ rest) = scanFrom { tokens := done } rest := by
  induction n with
  | zero => rfl
  | succ n ih => exact ih

private theorem scanFrom_newLine (layout : Layout) (rest : List Char) :
    scanFrom { tokens := done } (layout.newLine ++ rest) = scanFrom { tokens := done } rest := by
  cases layout with
  | line => rfl
  | block level => exact scanFrom_spaces (2 * level) rest

private theorem scanFrom_colon (layout : Layout) (rest : List Char) :
    scanFrom { tokens := done } (layout.colon ++ rest) = scanFrom { tokens := .colon :: done } rest := by
  cases layout <;> rfl

private theorem detached_newLine (layout : Layout) {rest : List Char} (detached : Detached rest) :
    Detached (layout.newLine ++ rest) := by
  cases layout with
  | line => exact detached
  | block level => simp [Detached, Layout.newLine]

private theorem detached_colon (layout : Layout) (rest : List Char) : Detached (layout.colon ++ rest) := by
  cases layout <;> simp [Detached, Layout.colon]

private theorem scans_intercalate {entries : List (List Char)} {parts : List (List Token)}
    (each : List.Forall₂ Scans entries parts) :
    Scans ([','].intercalate entries) ([.comma].intercalate parts) := by
  induction each with
  | nil => exact fun _ _ _ => rfl
  | @cons entry part entries parts first others ih =>
    cases others with
    | nil => simpa using first
    | @cons entry' part' entries' parts' second others =>
      intro done rest detached
      rw [List.intercalate_cons_cons, List.intercalate_cons_cons, List.append_assoc, List.append_assoc,
        first done _ (by simp [Detached])]
      have carried := ih (.comma :: (part.reverse ++ done)) rest detached
      refine Eq.trans carried ?_
      simp

private theorem scans_enclose (layout : Layout) {opening closing : Char} {left right : Token}
    (opens : ∀ done rest, scanFrom { tokens := done } (opening :: rest) = scanFrom { tokens := left :: done } rest)
    (closes : ∀ done rest, scanFrom { tokens := done } (closing :: rest) = scanFrom { tokens := right :: done } rest)
    (apart : ∀ rest, Detached (closing :: rest)) {entries : List (List Char)} {parts : List (List Token)}
    (each : List.Forall₂ Scans entries parts) :
    Scans (layout.enclose opening closing entries) (left :: [.comma].intercalate parts ++ [right]) := by
  have placed : List.Forall₂ Scans (entries.map (layout.deeper.newLine ++ ·)) parts :=
    List.forall₂_map_left_iff.mpr (each.imp fun entry part scans done rest detached => by
      rw [List.append_assoc, scanFrom_newLine, scans done rest detached])
  intro done rest _
  unfold Layout.enclose
  split
  next empty =>
    obtain rfl : entries = [] := List.isEmpty_iff.mp empty
    obtain rfl : parts = [] := List.forall₂_nil_left_iff.mp each
    exact (opens done _).trans (closes _ rest)
  next =>
    rw [List.cons_append, List.cons_append, List.cons_append, opens, List.append_assoc, List.append_assoc,
      List.singleton_append, scans_intercalate placed _ _ (detached_newLine layout (apart rest)), scanFrom_newLine]
    refine (closes _ rest).trans ?_
    simp

private theorem scans_member (layout : Layout) (key : String) {characters : List Char} {parts : List Token}
    (scans : Scans characters parts) :
    Scans (quote (some key) ++ layout.colon ++ characters) (.atom (text key) :: .colon :: parts) := by
  intro done rest detached
  rw [List.append_assoc, List.append_assoc, scans_quote key done _ (detached_colon layout _), scanFrom_colon,
    scans _ rest detached]
  simp

private theorem forall₂_elements {elements : List Json} {layout : Layout}
    (each : ∀ value ∈ elements, Scans (value.print layout) value.tokens) :
    List.Forall₂ Scans (printElements layout elements) (tokensOfElements elements) := by
  induction elements with
  | nil => exact .nil
  | cons value elements ih =>
    obtain ⟨first, others⟩ := List.forall_mem_cons.mp each
    exact .cons first (ih others)

private theorem forall₂_members {members : List (String × Json)} {layout : Layout}
    (each : ∀ member ∈ members, Scans (member.2.print layout) member.2.tokens) :
    List.Forall₂ Scans (printMembers layout (members.map fun (key, value) => (some key, value)))
      (tokensOfMembers (members.map fun (key, value) => (some key, value))) := by
  induction members with
  | nil => exact .nil
  | cons member members ih =>
    obtain ⟨first, others⟩ := List.forall_mem_cons.mp each
    exact .cons (scans_member layout member.1 first) (ih others)

/-- Whatever the layout, a value is scanned as its tokens. -/
theorem Plain.scans {value : Json} (plain : Plain value) (layout : Layout) :
    Scans (value.print layout) value.tokens := by
  induction plain generalizing layout with
  | null => exact fun _ _ _ => rfl
  | bool value => cases value <;> exact fun _ _ _ => rfl
  | integer negative magnitude => exact scans_integer negative magnitude
  | text value => exact scans_quote value
  | array elements _ ih =>
    exact scans_enclose layout (fun _ _ => rfl) (fun _ _ => rfl) (fun _ => by simp [Detached])
      (forall₂_elements fun value member => ih value member layout.deeper)
  | record members _ ih =>
    exact scans_enclose layout (fun _ _ => rfl) (fun _ _ => rfl) (fun _ => by simp [Detached])
      (forall₂_members fun member among => ih member among layout.deeper)

theorem Plain.scan_print {value : Json} (plain : Plain value) (layout : Layout) :
    scan (value.print layout) = some value.tokens := by
  have scanned := plain.scans layout [] [] (by simp [Detached])
  rw [List.append_nil, List.append_nil] at scanned
  calc
    scan (value.print layout) = scanFrom {} (value.print layout) := rfl
    _ = scanFrom { tokens := value.tokens.reverse } [] := scanned
    _ = some value.tokens.reverse.reverse := rfl
    _ = some value.tokens := by rw [List.reverse_reverse]

end Containers

end Json

end Equational
