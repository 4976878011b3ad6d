import Equational.Interner

/-! What interning leaves as it is. Names are only ever added, each behind those that are there, so a
name keeps its number and a number its name. -/

namespace Equational

theorem NameTable.lt_size_of_intern (table : NameTable) (name : String) :
    (table.intern name).1 < (table.intern name).2.size := by
  simp only [intern]
  split
  next i found =>
    rw [index?, List.idxOf?, List.findIdx?_eq_some_iff_getElem] at found
    exact found.1
  next => simp [size]

/-- The second interner knows all that the first knows, and more names of variables at most. -/
structure Interner.Continues (before after : Interner) : Prop where
  names : ∃ new, after.variableTable.names = before.variableTable.names ++ new
  constants : after.constantTable = before.constantTable
  functions : after.functionTable = before.functionTable
  sorts : after.sortTable = before.sortTable
  declared : after.declared = before.declared

namespace Interner.Continues

variable {before during after : Interner}

theorem refl (interner : Interner) : interner.Continues interner :=
  ⟨⟨[], (List.append_nil _).symm⟩, rfl, rfl, rfl, rfl⟩

theorem trans (first : before.Continues during) (second : during.Continues after) : before.Continues after where
  names := by
    obtain ⟨new, same⟩ := first.names
    obtain ⟨new', same'⟩ := second.names
    exact ⟨new ++ new', by rw [same', same, List.append_assoc]⟩
  constants := second.constants.trans first.constants
  functions := second.functions.trans first.functions
  sorts := second.sorts.trans first.sorts
  declared := second.declared.trans first.declared

theorem internVariable (interner : Interner) (name : String) :
    interner.Continues (interner.internVariable name).2 := by
  refine ⟨?_, rfl, rfl, rfl, rfl⟩
  simp only [Interner.internVariable, NameTable.intern]
  split
  · exact ⟨[], (List.append_nil _).symm⟩
  · exact ⟨[name], rfl⟩

theorem addVariable (interner : Interner) (name : String) (sort : SortId) :
    interner.Continues (interner.addVariable name sort).2 :=
  internVariable interner name

theorem variableCount_le (continues : before.Continues after) : before.variableCount ≤ after.variableCount := by
  obtain ⟨new, same⟩ := continues.names
  rw [variableCount, variableCount, NameTable.size, NameTable.size, same, List.length_append]
  exact Nat.le_add_right ..

/-- A name keeps its number. -/
theorem index?_eq (continues : before.Continues after) {name : String} (old : name ∈ before.variableTable.names) :
    after.variableTable.index? name = before.variableTable.index? name := by
  obtain ⟨new, same⟩ := continues.names
  have found : (before.variableTable.names.findIdx? (· == name)).isSome = true := by simpa using old
  rw [NameTable.index?, same]
  change List.findIdx? (· == name) (_ ++ new) = _
  rw [List.findIdx?_append, Option.or_of_isSome found]
  rfl

/-- A number keeps its name. -/
theorem variableName_eq (continues : before.Continues after) {id : VariableId}
    (old : id.index < before.variableCount) :
    after.variableName id = before.variableName id := by
  obtain ⟨new, same⟩ := continues.names
  rw [variableName, NameTable.resolve, same, List.getElem?_append_left old]
  rfl

end Interner.Continues

end Equational
