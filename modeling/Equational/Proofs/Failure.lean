import Equational.Failure
import Mathlib.Data.List.Basic

/-! Computations that can fail. One that succeeds has succeeded at every step, and a failure is
that of one step. -/

namespace Except

variable {ε α β : Type} {outcome : Except ε α} {good good' : α → Prop} {bad bad' : ε → Prop}

/-- A result passes one test, and a failure passes another. -/
def Gives (outcome : Except ε α) (good : α → Prop) (bad : ε → Prop) : Prop :=
  match outcome with
  | .ok value => good value
  | .error failure => bad failure

theorem gives_of (ok : ∀ value, outcome = .ok value → good value)
    (error : ∀ failure, outcome = .error failure → bad failure) :
    outcome.Gives good bad := by
  cases outcome with
  | ok value => exact ok value rfl
  | error failure => exact error failure rfl

theorem Gives.bind {k : α → Except ε β} {good' : β → Prop} (first : outcome.Gives good bad)
    (rest : ∀ value, good value → (k value).Gives good' bad) : (outcome >>= k).Gives good' bad := by
  cases outcome with
  | ok value => exact rest value first
  | error failure => exact first

theorem Gives.mono (gives : outcome.Gives good bad) (weaker : ∀ value, good value → good' value)
    (weaker' : ∀ failure, bad failure → bad' failure) : outcome.Gives good' bad' := by
  cases outcome with
  | ok value => exact weaker value gives
  | error failure => exact weaker' failure gives

theorem Gives.of_ok {value : α} (gives : outcome.Gives good bad) (succeeded : outcome = .ok value) : good value := by
  rwa [succeeded] at gives

theorem gives_foldlM {step : β → α → Except ε β} {items : List α} {holds : β → Prop} {value : β} (start : holds value)
    (each : ∀ item ∈ items, ∀ value, holds value → (step value item).Gives holds bad) :
    (items.foldlM step value).Gives holds bad := by
  induction items generalizing value with
  | nil => exact start
  | cons item items ih =>
    obtain ⟨first, later⟩ := List.forall_mem_cons.mp each
    rw [List.foldlM_cons]
    exact (first value start).bind fun next kept => ih kept later

theorem gives_mapM {step : α → Except ε β} {items : List α} {good : β → Prop}
    (each : ∀ item ∈ items, (step item).Gives good bad) : (items.mapM step).Gives (∀ value ∈ ·, good value) bad := by
  induction items with
  | nil => exact List.forall_mem_nil _
  | cons item items ih =>
    obtain ⟨first, later⟩ := List.forall_mem_cons.mp each
    rw [List.mapM_cons]
    refine first.bind fun value holds => (ih later).bind fun values all => ?_
    exact List.forall_mem_cons.mpr ⟨holds, all⟩

end Except

namespace Equational

def Failure.IsLimit (failure : Failure) : Prop :=
  ∃ limit, failure = .limitReached limit

variable {α β : Type} {outcome : Except Failure α} {k : α → Except Failure β}

theorem exists_of_bind_eq_ok {result : β} (succeeded : (outcome >>= k) = .ok result) :
    ∃ value, outcome = .ok value ∧ k value = .ok result := by
  cases outcome with
  | error failure => cases succeeded
  | ok value => exact ⟨value, rfl, succeeded⟩

theorem exists_of_bind_eq_error {failure : Failure} (failed : (outcome >>= k) = .error failure) :
    outcome = .error failure ∨ ∃ value, outcome = .ok value ∧ k value = .error failure := by
  cases outcome with
  | error failure' =>
    cases failed
    exact .inl rfl
  | ok value => exact .inr ⟨value, rfl, failed⟩

theorem exists_of_map_eq_ok {f : α → β} {result : β} (mapped : outcome.map f = .ok result) :
    ∃ value, outcome = .ok value ∧ f value = result := by
  cases outcome with
  | error failure => cases mapped
  | ok value =>
    cases mapped
    exact ⟨value, rfl, rfl⟩

section ForM

variable {test : α → Except Failure Unit} {l : List α}

theorem of_forM_ok (passed : l.forM test = .ok ()) : ∀ a ∈ l, test a = .ok () := by
  induction l with
  | nil => simp
  | cons a l ih =>
    obtain ⟨_, first, rest⟩ := exists_of_bind_eq_ok (k := fun _ => l.forM test) passed
    exact List.forall_mem_cons.mpr ⟨first, ih rest⟩

theorem exists_of_forM_error {failure : Failure} (failed : l.forM test = .error failure) :
    ∃ a ∈ l, test a = .error failure := by
  induction l with
  | nil => cases failed
  | cons a l ih =>
    rcases exists_of_bind_eq_error (k := fun _ => l.forM test) failed with first | ⟨_, _, rest⟩
    · exact ⟨a, List.mem_cons_self .., first⟩
    · obtain ⟨b, member, found⟩ := ih rest
      exact ⟨b, List.mem_cons_of_mem a member, found⟩

end ForM

theorem exists_of_mapM_ok {step : α → Except Failure β} {items : List α} {results : List β}
    (succeeded : items.mapM step = .ok results) :
    ∀ result ∈ results, ∃ item ∈ items, step item = .ok result := by
  induction items generalizing results with
  | nil =>
    cases succeeded
    exact List.forall_mem_nil _
  | cons item items ih =>
    rw [List.mapM_cons] at succeeded
    obtain ⟨value, first, rest⟩ := exists_of_bind_eq_ok succeeded
    obtain ⟨values, later, last⟩ := exists_of_bind_eq_ok rest
    cases last
    refine List.forall_mem_cons.mpr ⟨⟨item, List.mem_cons_self .., first⟩, fun result member => ?_⟩
    obtain ⟨origin, listed, same⟩ := ih later result member
    exact ⟨origin, List.mem_cons_of_mem item listed, same⟩

end Equational
