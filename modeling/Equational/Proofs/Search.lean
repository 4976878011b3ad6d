import Equational.Proofs.Failure
import Equational.Session
import Mathlib.Data.List.Nodup
import Mathlib.Data.List.Perm.Subperm

/-! Outcomes of searches. A search never gives up a name that it has drawn, and a fresh variable
has the first number that no name had before, so it is apart from every variable in use. -/

namespace Equational

namespace FreshSupply

theorem name_injective (supply : FreshSupply) : Function.Injective supply.name := by
  intro i j same
  have characters := congrArg String.toList same
  simp only [name, String.toList_append] at characters
  have digits := List.append_cancel_left characters
  have numbers := congrArg (fun ds => Nat.ofDigitChars 10 ds 0) digits
  simpa [Nat.toString_eq_ofList_toDigits] using numbers

private theorem contains_of_contains_search {supply : FreshSupply} {used : NameTable} {fuel number : Nat}
    (stuck : used.contains (supply.name (supply.search used fuel number)) = true) :
    ∀ i ≤ fuel, used.contains (supply.name (number + i)) = true := by
  induction fuel generalizing number with
  | zero =>
    intro i bound
    obtain rfl := Nat.le_zero.mp bound
    exact stuck
  | succ fuel ih =>
    simp only [search] at stuck
    split at stuck
    next taken =>
      intro i bound
      cases i with
      | zero => exact taken
      | succ i =>
        have later := ih stuck i (by omega)
        rwa [Nat.add_assoc, Nat.add_comm 1] at later
    next open' => exact absurd stuck open'

theorem contains_unused (supply : FreshSupply) (used : NameTable) :
    used.contains (supply.name (supply.unused used)) = false := by
  by_contra stuck
  rw [Bool.not_eq_false] at stuck
  have taken := contains_of_contains_search stuck
  have distinct : ((List.range (used.size + 1)).map fun i => supply.name (supply.next + i)).Nodup := by
    refine List.Nodup.map (fun i j same => ?_) List.nodup_range
    exact Nat.add_left_cancel (supply.name_injective same)
  have inside : ((List.range (used.size + 1)).map fun i => supply.name (supply.next + i)) ⊆ used.names := by
    intro name member
    obtain ⟨i, bound, rfl⟩ := List.mem_map.mp member
    have below := List.mem_range.mp bound
    exact List.contains_iff_mem.mp (taken i (by omega))
  have few := (distinct.subperm inside).length_le
  simp only [List.length_map, List.length_range, NameTable.size] at few
  omega

/-- A fresh variable gets the number after the last, and its name is added to the names in use. -/
theorem draw_eq_append (supply : FreshSupply) (interner : Interner) (sort : SortId) :
    supply.draw interner sort = (⟨⟨interner.variableTable.size⟩, sort⟩,
      { supply with next := supply.unused interner.variableTable + 1 },
      { interner with variableTable :=
        ⟨interner.variableTable.names ++ [supply.name (supply.unused interner.variableTable)]⟩ }) := by
  have missing : interner.variableTable.index? (supply.name (supply.unused interner.variableTable)) = none := by
    have unused := supply.contains_unused interner.variableTable
    rw [NameTable.index?, List.idxOf?_eq_none_iff]
    simpa [NameTable.contains] using unused
  simp [draw, Interner.addVariable, Interner.internVariable, NameTable.intern, missing]

theorem draw_eq (supply : FreshSupply) (interner : Interner) (sort : SortId) :
    (supply.draw interner sort).1 = ⟨⟨interner.variableTable.size⟩, sort⟩ ∧
      (supply.draw interner sort).2.2.variableTable.size = interner.variableTable.size + 1 := by
  simp [draw_eq_append, NameTable.size]

end FreshSupply

def Session.names (session : Session) : Nat :=
  session.interner.variableTable.size

namespace Search

theorem freshVariable_eq (sort : SortId) (session : Session) :
    ∃ after, freshVariable sort session = .ok ⟨⟨session.names⟩, sort⟩ after ∧ after.names = session.names + 1 := by
  obtain ⟨drawn, grown⟩ := session.fresh.draw_eq session.interner sort
  let drawing := session.fresh.draw session.interner sort
  refine ⟨{ session with interner := drawing.2.2, fresh := drawing.2.1 }, ?_, grown⟩
  rw [← show _ = (⟨⟨session.names⟩, sort⟩ : Variable) from drawn]
  rfl

variable {α β : Type} {session : Session} {fails : Failure → Prop}

theorem bind_of_ok {search : Search α} {next : α → Search β} {value : α} {after : Session}
    (ran : search session = .ok value after) : (search >>= next) session = next value after := by
  change EStateM.bind search next session = _
  simp only [EStateM.bind, ran]

theorem run_of_ok {search : Search α} {value : α} {stem : String} {interner : Interner} {after : Session}
    (ran : search { interner, fresh := { stem } } = .ok value after) : (search.run stem interner).1 = .ok value := by
  simp only [Search.run, ran]

/-- Every outcome of the search in the session: no name is lost, a result passes one test
together with the session after it, and a failure passes another. -/
def Ends (search : Search α) (session : Session) (P : α → Session → Prop) (fails : Failure → Prop) : Prop :=
  match search session with
  | .ok value after => session.names ≤ after.names ∧ P value after
  | .error failure after => session.names ≤ after.names ∧ fails failure

variable {search : Search α} {P : α → Session → Prop}

theorem Ends.of_ok {value : α} {after : Session} (ends : search.Ends session P fails)
    (ran : search session = .ok value after) : P value after := by
  rw [Ends, ran] at ends
  exact ends.2

theorem Ends.names_le_of_ok {value : α} {after : Session} (ends : search.Ends session P fails)
    (ran : search session = .ok value after) : session.names ≤ after.names := by
  rw [Ends, ran] at ends
  exact ends.1

theorem Ends.of_error {failure : Failure} {after : Session} (ends : search.Ends session P fails)
    (ran : search session = .error failure after) : fails failure := by
  rw [Ends, ran] at ends
  exact ends.2

/-- The same of a run, whose session begins with no name drawn and no step taken. The names that it
leaves in use are those of its last session. -/
theorem Ends.exists_session {value : α} {stem : String} {interner : Interner}
    (ends : search.Ends { interner, fresh := { stem } } P fails) (ran : (search.run stem interner).1 = .ok value) :
    ∃ after, after.interner = (search.run stem interner).2 ∧ P value after := by
  simp only [Search.run] at ran ⊢
  split at ran
  next found =>
    cases ran
    exact ⟨_, rfl, ends.of_ok found⟩
  next => cases ran

theorem Ends.of_run {value : α} {stem : String} {interner : Interner}
    (ends : search.Ends { interner, fresh := { stem } } P fails)
    (ran : (search.run stem interner).1 = .ok value) : ∃ after, P value after := by
  obtain ⟨after, _, holds⟩ := ends.exists_session ran
  exact ⟨after, holds⟩

theorem Ends.of_run_error {failure : Failure} {stem : String} {interner : Interner}
    (ends : search.Ends { interner, fresh := { stem } } P fails)
    (ran : (search.run stem interner).1 = .error failure) :
    fails failure := by
  simp only [Search.run] at ran
  split at ran
  next => cases ran
  next found =>
    cases ran
    exact ends.of_error found

theorem Ends.mono {Q : α → Session → Prop} {fails' : Failure → Prop} (ends : search.Ends session P fails)
    (weaker : ∀ value after, session.names ≤ after.names → P value after → Q value after)
    (weaker' : ∀ failure, fails failure → fails' failure) : search.Ends session Q fails' := by
  rw [Ends] at ends ⊢
  cases ran : search session with
  | ok value after =>
    rw [ran] at ends
    exact ⟨ends.1, weaker value after ends.1 ends.2⟩
  | error failure after =>
    rw [ran] at ends
    exact ⟨ends.1, weaker' failure ends.2⟩

theorem Ends.and {Q : α → Session → Prop} {fails' : Failure → Prop} (first : search.Ends session P fails)
    (second : search.Ends session Q fails') :
    search.Ends session (fun value after => P value after ∧ Q value after)
      (fun failure => fails failure ∧ fails' failure) := by
  rw [Ends] at first second ⊢
  cases ran : search session with
  | ok value after =>
    rw [ran] at first second
    exact ⟨first.1, first.2, second.2⟩
  | error failure after =>
    rw [ran] at first second
    exact ⟨first.1, first.2, second.2⟩

/-- What holds for each index of a family holds for all of them together. -/
theorem Ends.forall {ι : Sort*} {P : ι → α → Session → Prop} {fails : ι → Failure → Prop}
    (ends : search.Ends session (fun _ _ => True) (fun _ => True)) (each : ∀ i, search.Ends session (P i) (fails i)) :
    search.Ends session (fun value after => ∀ i, P i value after) (fun failure => ∀ i, fails i failure) := by
  simp only [Ends] at ends each ⊢
  split
  next ran =>
    rw [ran] at ends
    exact ⟨ends.1, fun i => (by simpa only [ran] using each i : _ ∧ _).2⟩
  next ran =>
    rw [ran] at ends
    exact ⟨ends.1, fun i => (by simpa only [ran] using each i : _ ∧ _).2⟩

/-- The run that the outcome is of. -/
theorem Ends.ran (ends : search.Ends session P fails) :
    search.Ends session (fun value after => search session = .ok value after ∧ P value after) fails := by
  rw [Ends] at ends ⊢
  cases ran : search session with
  | ok value after =>
    rw [ran] at ends
    exact ⟨ends.1, rfl, ends.2⟩
  | error failure after =>
    rw [ran] at ends
    exact ends

theorem ends_pure {value : α} (holds : P value session) : Ends (pure value) session P fails :=
  ⟨Nat.le_refl _, holds⟩

theorem ends_throw {failure : Failure} (holds : fails failure) : Ends (throw failure : Search α) session P fails :=
  ⟨Nat.le_refl _, holds⟩

theorem ends_ofExcept {outcome : Except Failure α} (good : ∀ value, outcome = .ok value → P value session)
    (bad : ∀ failure, outcome = .error failure → fails failure) : (ofExcept outcome).Ends session P fails := by
  cases outcome with
  | ok value => exact ends_pure (good value rfl)
  | error failure => exact ends_throw (bad failure rfl)

theorem ends_of_gives {outcome : Except Failure α} (gives : outcome.Gives (P · session) fails) :
    (ofExcept outcome).Ends session P fails := by
  cases outcome with
  | ok value => exact ends_pure gives
  | error failure => exact ends_throw gives

theorem ok_of_ofExcept {outcome : Except Failure α} {value : α} {after : Session}
    (ran : ofExcept outcome session = .ok value after) :
    outcome = .ok value := by
  cases outcome <;> cases ran
  rfl

theorem Ends.bind {next : α → Search β} {Q : β → Session → Prop} (first : search.Ends session P fails)
    (then' : ∀ value after, session.names ≤ after.names → P value after → (next value).Ends after Q fails) :
    (search >>= next).Ends session Q fails := by
  rw [Ends] at first ⊢
  change match EStateM.bind search next session with | .ok .. => _ | .error .. => _
  simp only [EStateM.bind]
  cases ran : search session with
  | error failure after =>
    rw [ran] at first
    exact first
  | ok value after =>
    rw [ran] at first
    have second := then' value after first.1 first.2
    simp only [Ends] at second
    dsimp only
    split at second
    · exact ⟨Nat.le_trans first.1 second.1, second.2⟩
    · exact ⟨Nat.le_trans first.1 second.1, second.2⟩

/-- What is known of the value without searching stays known in the rest of the search. -/
theorem ends_ofExcept_bind {outcome : Except Failure α} {next : α → Search β} {Q : β → Session → Prop}
    (good : ∀ value, outcome = .ok value → (next value).Ends session Q fails)
    (bad : ∀ failure, outcome = .error failure → fails failure) :
    (ofExcept outcome >>= next).Ends session Q fails := by
  cases outcome with
  | ok value => exact good value rfl
  | error failure => exact ends_throw (bad failure rfl)

theorem ends_throw_bind {failure : Failure} {next : α → Search β} {Q : β → Session → Prop} (holds : fails failure) :
    (throw failure >>= next).Ends session Q fails :=
  ⟨Nat.le_refl _, holds⟩

theorem ends_freshVariable {P : Variable → Session → Prop} (sort : SortId)
    (holds : ∀ after, after.names = session.names + 1 → P ⟨⟨session.names⟩, sort⟩ after) :
    (freshVariable sort).Ends session P fails := by
  obtain ⟨after, ran, names⟩ := freshVariable_eq sort session
  simp only [Ends]
  rw [ran]
  exact ⟨by omega, holds after names⟩

/-- The fresh variable is the first that is not in use. -/
theorem ends_freshNamed (sort : SortId) : (freshVariable sort).Ends session
    (fun v after => v = ⟨⟨session.names⟩, sort⟩ ∧ after.names = session.names + 1) fails :=
  ends_freshVariable sort fun _ names => ⟨rfl, names⟩

/-- An attempt itself never fails. -/
theorem Ends.attempt {fails' : Failure → Prop} (ends : search.Ends session P fails) :
    search.attempt.Ends session (fun outcome after =>
      (∀ value, outcome = .ok value → P value after) ∧ ∀ failure, outcome = .error failure →
        fails failure) fails' := by
  rw [Ends] at ends ⊢
  simp only [Search.attempt]
  cases ran : search session with
  | ok value after =>
    rw [ran] at ends
    refine ⟨ends.1, fun other same => ?_, fun _ same => ?_⟩
    · cases same
      exact ends.2
    · cases same
  | error failure after =>
    rw [ran] at ends
    refine ⟨ends.1, fun _ same => ?_, fun other same => ?_⟩
    · cases same
    · cases same
      exact ends.2

/-- A loop keeps what each of its rounds keeps. -/
theorem ends_foldlM {items : List β} {step : α → β → Search α} {I : α → Session → Prop} {start : α}
    (initial : I start session)
    (round : ∀ item ∈ items, ∀ value during, session.names ≤ during.names → I value during →
      (step value item).Ends during I fails) :
    (items.foldlM step start).Ends session I fails := by
  induction items generalizing start session with
  | nil => exact ends_pure initial
  | cons item items ih =>
    rw [List.foldlM_cons]
    refine (round item (List.mem_cons_self ..) start session (Nat.le_refl _) initial).bind ?_
    intro value after grown holds
    refine ih holds ?_
    intro item member value during later
    exact round item (List.mem_cons_of_mem _ member) value during (by omega)

/-- What one round of a loop gains and the other rounds keep holds of the result. -/
theorem ends_foldlM_of_mem {I : α → Prop} {items : List β} {item : β} {step : α → β → Search α} {start : α}
    (member : item ∈ items)
    (keeps : ∀ other ∈ items, ∀ value during, session.names ≤ during.names →
      (step value other).Ends during (fun next _ => I value → I next) fails)
    (gains : ∀ value during, session.names ≤ during.names →
      (step value item).Ends during (fun next _ => I next) fails) :
    (items.foldlM step start).Ends session (fun value _ => I value) fails := by
  obtain ⟨before, after, rfl⟩ := List.append_of_mem member
  rw [List.foldlM_append]
  refine (ends_foldlM (I := fun _ _ => True) trivial fun other listed value during grown _ =>
    (keeps other (List.mem_append_left _ listed) value during grown).mono (fun _ _ _ _ => trivial) fun _ fails =>
      fails).bind ?_
  intro value during grown _
  rw [List.foldlM_cons]
  refine (gains value during grown).bind fun value middle grown' holds => ends_foldlM holds ?_
  intro other listed value during later holds
  exact (keeps other (List.mem_append_right _ (List.mem_cons_of_mem item listed)) value during (by omega)).mono
    (fun _ _ _ kept => kept holds) fun _ fails => fails

end Search

end Equational
