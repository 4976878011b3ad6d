import Equational.Encoding.Limits
import Equational.Proofs.Json.Fields
import Equational.Proofs.Json.Reading

/-! Limits survive being written down. The text of limits is read as the limits themselves, as long as
their numbers have 64 bits, whatever the stem of the fresh names is. -/

namespace Equational

namespace Limits

/-- Every number is in range. The stem may be any text. -/
structure InRange (limits : Limits) : Prop where
  rewriteBound : ∀ bound ∈ limits.rewriteBound, bound ≤ maxLimit
  acMaxBasis : limits.acMaxBasis ≤ maxLimit
  acMaxFrontier : limits.acMaxFrontier ≤ maxLimit
  expMaxSteps : limits.expMaxSteps ≤ maxLimit
  expMaxEquations : limits.expMaxEquations ≤ maxLimit

private theorem plain_toJson (limits : Limits) : limits.toJson.Plain := by
  refine .record _ ?_
  have bound : (limits.rewriteBound.elim .null Json.natural).Plain := by
    cases limits.rewriteBound with
    | none => exact .null
    | some n => exact .integer false n
  simp only [List.forall_mem_cons]
  exact ⟨bound, .integer .., .integer .., .bool _, .integer .., .integer .., .text _, by simp⟩

private theorem optional?_bound {bound read : Option Nat} :
    Json.optional? (Json.natural? maxLimit) (bound.elim .null Json.natural) = some read ↔
      read = bound ∧ ∀ n ∈ bound, n ≤ maxLimit := by
  cases bound with
  | none => simp [Json.optional?, eq_comm]
  | some n =>
    change (Json.natural? maxLimit (Json.natural n)).map some = some read ↔ _
    rw [Option.map_eq_some_iff]
    simp only [Json.natural?_natural]
    constructor
    · rintro ⟨_, ⟨rfl, within⟩, rfl⟩
      exact ⟨rfl, by simpa using within⟩
    · rintro ⟨rfl, within⟩
      exact ⟨n, ⟨rfl, within n rfl⟩, rfl⟩

private theorem fields?_toJson (limits : Limits) :
    limits.toJson.fields? fieldNames =
      some [some (limits.rewriteBound.elim .null Json.natural), some (.natural limits.acMaxBasis),
        some (.natural limits.acMaxFrontier), some (.bool limits.acParallel), some (.natural limits.expMaxSteps),
        some (.natural limits.expMaxEquations), some (.text limits.freshStem)] :=
  Json.fields?_record rfl (by decide)

private theorem ofJson?_toJson {limits read : Limits} :
    ofJson? limits.toJson = some read ↔ read = limits ∧ limits.InRange := by
  rw [ofJson?, fields?_toJson]
  simp only [Option.bind_eq_bind, Option.bind_some, Json.fieldOr, Option.bind_eq_some_iff, optional?_bound,
    Json.natural?_natural, Json.bool?, Json.text?, Json.text]
  constructor
  · rintro ⟨_, ⟨rfl, bound⟩, _, ⟨rfl, basis⟩, _, ⟨rfl, frontier⟩, _, ⟨rfl, steps⟩, _, ⟨rfl, equations⟩, ⟨⟩⟩
    exact ⟨rfl, bound, basis, frontier, steps, equations⟩
  · rintro ⟨rfl, bound, basis, frontier, steps, equations⟩
    exact ⟨_, ⟨rfl, bound⟩, _, ⟨rfl, basis⟩, _, ⟨rfl, frontier⟩, _, ⟨rfl, steps⟩, _, ⟨rfl, equations⟩, rfl⟩

/-- Nothing but the limits themselves is read from their text, and they are read exactly if their
numbers are in range. -/
theorem ofText?_toText (limits read : Limits) :
    ofText? limits.toText = some read ↔ read = limits ∧ limits.InRange := by
  have parsed : Json.parse? limits.toText = some limits.toJson := limits.plain_toJson.parse?_print (.block 0)
  rw [ofText?, parsed, Option.bind_some, ofJson?_toJson]

end Limits

end Equational
