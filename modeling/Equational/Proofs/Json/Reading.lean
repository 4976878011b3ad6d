import Equational.Json.Reader
import Equational.Proofs.Json.Scanning

/-! Reading written values back. The reader hands the value of a token list to the innermost open
container, whatever is open around it, so that a text is read as the value it was written for. -/

namespace Equational

namespace Json

variable {stack : List Frame} {rest : List Token}

def Reads (value : Json) : Prop :=
  ∀ stack rest,
    (value.tokens ++ rest).foldlM Reader.step { stack } = rest.foldlM Reader.step (Reader.deliver stack value)

private theorem read_firstElement (value : Json) (others : List Json) :
    ([Token.comma].intercalate (tokensOfElements (value :: others)) ++ rest).foldlM Reader.step
        { stack := .array [] :: stack, expectation := .firstElement } =
      ([Token.comma].intercalate (tokensOfElements (value :: others)) ++ rest).foldlM Reader.step
        { stack := .array [] :: stack } := by
  cases others <;> cases value <;> rfl

private theorem read_firstKey (member : Option String × Json) (others : List (Option String × Json)) :
    ([Token.comma].intercalate (tokensOfMembers (member :: others)) ++ rest).foldlM Reader.step
      { stack, expectation := .firstKey } =
      ([Token.comma].intercalate (tokensOfMembers (member :: others)) ++ rest).foldlM Reader.step
        { stack, expectation := .key [] } := by
  cases others <;> rfl

private theorem read_elements {elements : List Json} (each : ∀ value ∈ elements, Reads value)
    (inhabited : elements ≠ []) (stack : List Frame) (reversed : List Json) (rest : List Token) :
    ([Token.comma].intercalate (tokensOfElements elements) ++ .rightBracket :: rest).foldlM Reader.step
        { stack := .array reversed :: stack } =
      rest.foldlM Reader.step (Reader.deliver stack (.array (reversed.reverse ++ elements))) := by
  -- What has been read is general: a value that is delivered moves onto it, and the rest is read from there.
  induction elements generalizing reversed with
  | nil => contradiction
  | cons value others ih =>
    obtain ⟨first, each⟩ := List.forall_mem_cons.mp each
    cases others with
    | nil =>
      rw [tokensOfElements, tokensOfElements, List.intercalate_singleton, first, ← List.reverse_cons]
      rfl
    | cons next others =>
      have carried := ih each (List.cons_ne_nil _ _) (value :: reversed)
      rw [tokensOfElements, tokensOfElements, List.intercalate_cons_cons, List.append_assoc, List.append_assoc, first]
      rw [List.reverse_cons, List.append_assoc] at carried
      exact carried

private theorem read_members {members : List (Option String × Json)} (each : ∀ member ∈ members, Reads member.2)
    (inhabited : members ≠ []) (stack : List Frame) (reversed : List (Option String × Json)) (rest : List Token) :
    ([Token.comma].intercalate (tokensOfMembers members) ++ .rightBrace :: rest).foldlM Reader.step
        { stack, expectation := .key reversed } =
      rest.foldlM Reader.step (Reader.deliver stack (.object (reversed.reverse ++ members))) := by
  induction members generalizing reversed with
  | nil => contradiction
  | cons member others ih =>
    obtain ⟨key, value⟩ := member
    obtain ⟨first, each⟩ := List.forall_mem_cons.mp each
    have named (following : List Token) :
        (.atom (.string key) :: .colon :: value.tokens ++ following).foldlM Reader.step
            { stack, expectation := .key reversed } =
          following.foldlM Reader.step
            { stack := .object ((key, value) :: reversed) key :: stack, expectation := .separator } :=
      first (.object reversed key :: stack) following
    cases others with
    | nil =>
      rw [tokensOfMembers, tokensOfMembers, List.intercalate_singleton, named, ← List.reverse_cons]
      rfl
    | cons next others =>
      have carried := ih each (List.cons_ne_nil _ _) ((key, value) :: reversed)
      rw [tokensOfMembers, tokensOfMembers, List.intercalate_cons_cons, List.append_assoc, List.append_assoc, named]
      rw [List.reverse_cons, List.append_assoc] at carried
      exact carried

private theorem Plain.reads {value : Json} (plain : Plain value) : Reads value := by
  induction plain with
  | null | bool | integer | text => exact fun _ _ => rfl
  | array elements _ each =>
    intro stack rest
    cases elements with
    | nil => rfl
    | cons value others =>
      have read := read_elements each (List.cons_ne_nil _ _) stack [] rest
      rw [← read_firstElement] at read
      rw [tokens, List.append_assoc]
      exact read
  | record members _ each =>
    intro stack rest
    cases members with
    | nil => rfl
    | cons member others =>
      obtain ⟨first, following⟩ := List.forall_mem_cons.mp each
      rw [Json.record, tokens, List.append_assoc]
      refine (read_firstKey _ _).trans ?_
      exact read_members (List.forall_mem_cons.mpr ⟨first, List.forall_mem_map.mpr following⟩)
        (List.cons_ne_nil _ _) stack [] rest

/-- A value is read back from its text in any layout. -/
theorem Plain.parse?_print {value : Json} (plain : Plain value) (layout : Layout) :
    parse? (String.ofList (value.print layout)) = some value := by
  have read := plain.reads [] []
  rw [List.append_nil] at read
  rw [parse?, String.toList_ofList, plain.scan_print]
  change (value.tokens.foldlM Reader.step {} >>= _) = _
  rw [read]
  rfl

/-- Quotes, backslashes and control characters are read back, and the largest number of 64 bits is. -/
example :
    let value := array [text "\"\\\n\x01", natural (UInt64.size - 1)]
    parse? value.compact = some value := by
  cbv

end Json

end Equational
