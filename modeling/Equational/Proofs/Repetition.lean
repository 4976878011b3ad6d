import Mathlib.Data.List.Induction

/-! Lists without the entries that equal an earlier one. Equality need not decide identity. -/

namespace List

variable {α : Type} [BEq α]

theorem mem_of_mem_eraseDups {a : α} {l : List α} (member : a ∈ l.eraseDups) : a ∈ l :=
  match l with
  | [] => member
  | b :: rest => by
    rw [eraseDups_cons] at member
    rcases mem_cons.mp member with rfl | later
    · exact mem_cons_self ..
    · exact mem_cons_of_mem b (mem_filter.mp (mem_of_mem_eraseDups later)).1
termination_by l.length
decreasing_by exact Nat.lt_succ_of_le (length_filter_le ..)

/-- What is dropped equals something that is kept. -/
theorem exists_mem_eraseDups [EquivBEq α] {a : α} {l : List α} (member : a ∈ l) : ∃ b ∈ l.eraseDups,
    (a == b) = true :=
  match l with
  | [] => nomatch member
  | b :: rest => by
    rw [eraseDups_cons]
    by_cases same : (a == b) = true
    · exact ⟨b, mem_cons_self .., same⟩
    · have later : a ∈ rest := (mem_cons.mp member).resolve_left fun equal => same (equal ▸ BEq.refl b)
      have inside : a ∈ rest.filter fun c => !(c == b) := mem_filter.mpr ⟨later, by simpa using same⟩
      obtain ⟨c, kept, equal⟩ := exists_mem_eraseDups inside
      exact ⟨c, mem_cons_of_mem b kept, equal⟩
termination_by l.length
decreasing_by exact Nat.lt_succ_of_le (length_filter_le ..)

theorem pairwise_eraseDups (l : List α) : l.eraseDups.Pairwise fun a b => (b == a) = false :=
  match l with
  | [] => .nil
  | b :: rest => by
    rw [eraseDups_cons, pairwise_cons]
    refine ⟨fun c later => ?_, pairwise_eraseDups _⟩
    simpa using (mem_filter.mp (mem_of_mem_eraseDups later)).2
termination_by l.length
decreasing_by exact Nat.lt_succ_of_le (length_filter_le ..)

theorem nodup_eraseDups [LawfulBEq α] (l : List α) : l.eraseDups.Nodup :=
  (pairwise_eraseDups l).imp fun {a b} distinct same => by simp [same] at distinct

section Lawful

variable [LawfulBEq α] {β : Type} [BEq β] [LawfulBEq β]

theorem eraseDups_concat (l : List α) (a : α) :
    (l ++ [a]).eraseDups = if a ∈ l then l.eraseDups else l.eraseDups ++ [a] := by
  rw [eraseDups_append]
  split
  next known => simp [removeAll, known]
  next new => simp [removeAll, new, eraseDups_cons]

theorem length_eraseDups_le (l : List α) : l.eraseDups.length ≤ l.length := by
  induction l using reverseRec with
  | nil => exact Nat.le_refl _
  | append_singleton l a ih =>
    rw [eraseDups_concat, length_append]
    split
    · exact Nat.le_add_right_of_le ih
    · rw [length_append]
      exact Nat.add_le_add_right ih _

theorem eraseDups_map {f : α → β} {l : List α} (injective : ∀ a ∈ l, ∀ b ∈ l, f a = f b → a = b) :
    (l.map f).eraseDups = l.eraseDups.map f := by
  induction l using reverseRec with
  | nil => rfl
  | append_singleton l a ih =>
    have inside : ∀ a ∈ l, ∀ b ∈ l, f a = f b → a = b := fun a first b second =>
      injective a (mem_append_left _ first) b (mem_append_left _ second)
    have same : f a ∈ l.map f ↔ a ∈ l := by
      refine ⟨fun member => ?_, mem_map_of_mem⟩
      obtain ⟨b, second, equal⟩ := mem_map.mp member
      exact injective b (mem_append_left _ second) a (by simp) equal ▸ second
    rw [map_append, map_singleton, eraseDups_concat, eraseDups_concat, ih inside]
    simp only [same]
    split
    · rfl
    · rw [map_append, map_singleton]

end Lawful

end List
