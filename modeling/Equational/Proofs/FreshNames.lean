import Equational.Proofs.Interner
import Equational.Proofs.Search

/-! The supply of fresh variables. Distinct numbers give distinct names on any stem, and there are only
so many names in use, so the candidates run out of names to collide with. What is drawn is therefore a
name nobody has used, under the next number. -/

namespace Equational

namespace FreshSupply

variable {supply : FreshSupply} {used : NameTable} {fuel number : Nat}

/-- The first unused number at or after `number`, however many candidates have to be passed over for it. -/
def firstUnused? (supply : FreshSupply) (used : NameTable) (number : Nat) : Option Nat :=
  if used.contains (supply.name number) then supply |>.firstUnused? used (number + 1) else some number
partial_fixpoint

private theorem firstUnused?_eq_search (free : used.contains (supply.name (supply.search used fuel number)) = false) :
    supply.firstUnused? used number = some (supply.search used fuel number) := by
  induction fuel generalizing number with
  | zero =>
    simp only [search] at free ⊢
    rw [firstUnused?, free]
    rfl
  | succ fuel ih =>
    rw [firstUnused?]
    simp only [search] at free ⊢
    split
    next taken =>
      rw [if_pos taken] at free
      exact ih free
    next => rfl

/-- The search comes to an end without a limit on the candidates, and at the number that it finds under the limit. -/
theorem firstUnused?_eq_unused (supply : FreshSupply) (used : NameTable) :
    supply.firstUnused? used supply.next = some (supply.unused used) :=
  firstUnused?_eq_search (supply.contains_unused used)

private theorem le_search (supply : FreshSupply) (used : NameTable) (fuel number : Nat) :
    number ≤ supply.search used fuel number := by
  induction fuel generalizing number with
  | zero => exact Nat.le_refl _
  | succ fuel ih =>
    simp only [search]
    split
    · exact Nat.le_trans (Nat.le_succ number) (ih (number + 1))
    · exact Nat.le_refl _

private theorem issued_lt_of_draw (supply : FreshSupply) (interner : Interner) (sort : SortId) :
    supply.issued < (supply.draw interner sort).2.1.issued := by
  rw [draw_eq_append]
  exact Nat.lt_succ_of_le (supply.le_search _ _ _)

private theorem continues_draw (supply : FreshSupply) (interner : Interner) (sort : SortId) :
    interner.Continues (supply.draw interner sort).2.2 := by
  rw [draw_eq_append]
  exact ⟨⟨_, rfl⟩, rfl, rfl, rfl, rfl⟩

/-- What is asked of a supply and an interner in turn: a variable of a sort under a fresh name, or the
number of a given name. -/
inductive Request where
  | fresh (sort : SortId)
  | name (name : String)

def answer (request : Request) (supply : FreshSupply) (interner : Interner) : VariableId × FreshSupply × Interner :=
  match request with
  | .fresh sort =>
    let (v, supply, interner) := supply.draw interner sort
    (v.id, supply, interner)
  | .name name =>
    let (id, interner) := interner.internVariable name
    (id, supply, interner)

def answerAll : List Request → FreshSupply → Interner → List VariableId × FreshSupply × Interner
  | [], supply, interner => ([], supply, interner)
  | request :: requests, supply, interner =>
    let (id, supply, interner) := answer request supply interner
    let (ids, supply, interner) := answerAll requests supply interner
    (id :: ids, supply, interner)

private theorem answer_known (request : Request) (supply : FreshSupply) (interner : Interner) :
    interner.Continues (answer request supply interner).2.2 ∧
      (answer request supply interner).1.index < (answer request supply interner).2.2.variableCount := by
  cases request with
  | fresh sort =>
    refine ⟨supply.continues_draw interner sort, ?_⟩
    obtain ⟨drawn, grown⟩ := supply.draw_eq interner sort
    simp only [answer, drawn, Interner.variableCount, grown]
    exact Nat.lt_succ_self _
  | name name => exact ⟨.internVariable interner name, interner.variableTable.lt_size_of_intern name⟩

private theorem answerAll_known (requests : List Request) (supply : FreshSupply) (interner : Interner) :
    interner.Continues (answerAll requests supply interner).2.2 ∧
      ∀ id ∈ (answerAll requests supply interner).1, id.index <
        (answerAll requests supply interner).2.2.variableCount := by
  induction requests generalizing supply interner with
  | nil => exact ⟨.refl interner, List.forall_mem_nil _⟩
  | cons request requests ih =>
    obtain ⟨first, known⟩ := answer_known request supply interner
    obtain ⟨rest, others⟩ := ih (answer request supply interner).2.1 (answer request supply interner).2.2
    exact ⟨first.trans rest, List.forall_mem_cons.mpr ⟨Nat.lt_of_lt_of_le known rest.variableCount_le, others⟩⟩

section Counting

private def Counted (supply : FreshSupply) (used : NameTable) : Prop :=
  ∀ number < supply.next, supply.name number ∈ used.names

private theorem Counted.issued_le (counted : supply.Counted used) : supply.issued ≤ used.size := by
  have distinct : ((List.range supply.next).map supply.name).Nodup := List.nodup_range.map supply.name_injective
  have inside : (List.range supply.next).map supply.name ⊆ used.names := by
    intro name member
    obtain ⟨number, below, rfl⟩ := List.mem_map.mp member
    exact counted number (List.mem_range.mp below)
  simpa [issued, NameTable.size] using (distinct.subperm inside).length_le

private theorem name_mem_of_lt_search (supply : FreshSupply) {i : Nat} (after : number ≤ i)
    (before : i < supply.search used fuel number) :
    supply.name i ∈ used.names := by
  induction fuel generalizing number with
  | zero => exact absurd before (Nat.not_lt.mpr after)
  | succ fuel ih =>
    simp only [search] at before
    split at before
    next taken =>
      rcases Nat.eq_or_lt_of_le after with rfl | later
      · simpa [NameTable.contains] using taken
      · exact ih later before
    next => exact absurd before (Nat.not_lt.mpr after)

private theorem Counted.answer {interner : Interner} (counted : supply.Counted interner.variableTable)
    (request : Request) :
    (answer request supply interner).2.1.Counted (answer request supply interner).2.2.variableTable := by
  cases request with
  | fresh sort =>
    simp only [FreshSupply.answer, draw_eq_append]
    intro i below
    rw [List.mem_append, List.mem_singleton]
    rcases Nat.lt_succ_iff_lt_or_eq.mp below with passed | rfl
    · rcases Nat.lt_or_ge i supply.next with old | new
      · exact .inl (counted i old)
      · exact .inl (supply.name_mem_of_lt_search new passed)
    · exact .inr rfl
  | name name =>
    obtain ⟨new, same⟩ := (Interner.Continues.internVariable interner name).names
    intro i below
    simp only [FreshSupply.answer, same]
    exact List.mem_append_left new (counted i below)

/-- A supply that begins at zero has used up no more numbers than there are names of variables. -/
theorem issued_le_variableCount (stem : String) (interner : Interner) (requests : List Request) :
    let (_, supply, interner) := answerAll requests { stem } interner
    supply.issued ≤ interner.variableCount := by
  suffices run : ∀ supply interner, supply.Counted interner.variableTable →
      (answerAll requests supply interner).2.1.Counted (answerAll requests supply interner).2.2.variableTable from
    (run { stem } interner (fun _ => nofun)).issued_le
  induction requests with
  | nil => exact fun _ _ counted => counted
  | cons request requests ih => exact fun _ _ counted => ih _ _ (counted.answer request)

end Counting

/-- After any requests whatever, the next fresh variable is delivered: the search for its name ends. It
has the sort asked for and the next number, which no name has had and no request was answered with. Its
name is the one name added, behind those that are known; each of these keeps its number and each number
its name, and the count of numbers used up increases. For a supply that begins at zero the count is at
most the number of names (`issued_le_variableCount`), so while there are no more than 2^32 - 1 names of
variables 32 bits are enough for it and for the numbers of the variables. -/
theorem draw_after_requests (supply : FreshSupply) (interner : Interner) (requests : List Request) (sort : SortId) :
    let (ids, supply, interner) := answerAll requests supply interner
    let (v, supply', interner') := supply.draw interner sort
    ∃ number, supply.firstUnused? interner.variableTable supply.next = some number ∧
      v.sort = sort ∧ v.id.index = interner.variableCount ∧ v.id ∉ ids ∧
      (∀ name i, interner.variableTable.index? name = some i → v.id ≠ ⟨i⟩) ∧
      interner'.variableTable.names = interner.variableTable.names ++ [supply.name number] ∧
      supply.name number ∉ interner.variableTable.names ∧ interner'.variableName v.id = supply.name number ∧
      interner.Continues interner' ∧
      (∀ name ∈ interner.variableTable.names,
        interner'.variableTable.index? name = interner.variableTable.index? name) ∧
      (∀ id : VariableId, id.index < interner.variableCount → interner'.variableName id = interner.variableName id) ∧
      supply.issued < supply'.issued := by
  obtain ⟨_, known⟩ := answerAll_known requests supply interner
  generalize answerAll requests supply interner = run at known
  obtain ⟨ids, supply, interner⟩ := run
  have continues := supply.continues_draw interner sort
  have increases := supply.issued_lt_of_draw interner sort
  have missing := supply.contains_unused interner.variableTable
  dsimp only
  rw [draw_eq_append] at continues increases ⊢
  refine ⟨supply.unused interner.variableTable, supply.firstUnused?_eq_unused _, rfl, rfl, fun issued => ?_,
    fun name i found same => ?_,
    rfl, by
      simpa [NameTable.contains] using missing, ?_, continues, fun _ => continues.index?_eq, fun _ =>
        continues.variableName_eq, increases⟩
  · exact Nat.ne_of_lt (known _ issued) rfl
  · cases same
    rw [NameTable.index?, List.idxOf?, List.findIdx?_eq_some_iff_getElem] at found
    exact Nat.ne_of_lt found.1 rfl
  · simp [Interner.variableName, NameTable.resolve, NameTable.size]

/-- The caller takes one name of the supply away beforehand, and another in between. -/
example :
    let requests : List Request := [.name "v_1", .fresh ⟨3⟩, .name "x", .name "v_2", .fresh .default, .name "v_1"]
    let (ids, supply, interner) := answerAll requests {} .empty
    let (v, supply', interner') := supply.draw interner ⟨7⟩
    ids = [⟨0⟩, ⟨1⟩, ⟨2⟩, ⟨3⟩, ⟨4⟩, ⟨0⟩] ∧ supply.issued = 4 ∧ v = ⟨⟨5⟩, ⟨7⟩⟩ ∧ supply'.issued = 5 ∧
      interner'.variableTable.names = ["v_1", "v_0", "x", "v_2", "v_3", "v_4"] := by
  cbv

end FreshSupply

end Equational
