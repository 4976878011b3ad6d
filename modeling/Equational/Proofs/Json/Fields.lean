import Equational.Json.Fields
import Mathlib.Data.List.Nodup

/-! The fields of written records. A record that is written with every key once is read as the values of its keys. -/

namespace Equational

namespace Json

variable {members : List (String × Json)}

private theorem mapM_keys : (members.map fun (key, value) => (some key, value)).mapM
    (fun (key, value) => key.map (·, value)) = some members := by
  induction members with
  | nil => rfl
  | cons member members ih =>
    rw [List.map_cons, List.mapM_cons, ih]
    rfl

private theorem lookup_of_mem (distinct : (members.map Prod.fst).Nodup) {member : String × Json}
    (among : member ∈ members) :
    List.lookup member.1 members = some member.2 := by
  obtain ⟨before, after, rfl⟩ := List.append_of_mem among
  rw [List.map_append, List.map_cons, List.nodup_append] at distinct
  refine List.lookup_eq_some_iff.mpr ⟨before, after, rfl, fun other earlier => bne_iff_ne.mpr fun same => ?_⟩
  exact distinct.2.2 _ (List.mem_map_of_mem earlier) _ List.mem_cons_self same.symm

/-- Every field of a record is found under its key. -/
theorem fields?_record {names : List String} (keys : members.map Prod.fst = names) (distinct : names.Nodup) :
    fields? names (record members) = some (members.map (some ·.2)) := by
  subst keys
  have once : ((members.map Prod.fst).any fun name => 1 < members.countP (·.1 == name)) = false := by
    refine List.any_eq_false.mpr fun name _ repeated => ?_
    have counted := List.nodup_iff_count_le_one.mp distinct name
    rw [List.count, List.countP_map] at counted
    exact absurd (of_decide_eq_true repeated) (Nat.not_lt.mpr counted)
  have found : (members.map Prod.fst).map (List.lookup · members) = members.map (some ·.2) := by
    rw [List.map_map]
    exact List.map_congr_left fun member among => lookup_of_mem distinct among
  unfold fields? record
  dsimp only [Option.bind_eq_bind]
  rw [mapM_keys, Option.bind_some, once, found]
  rfl

theorem allFields?_record {names : List String} (keys : members.map Prod.fst = names) (distinct : names.Nodup) :
    allFields? names (record members) = some (members.map Prod.snd) := by
  rw [allFields?, fields?_record keys distinct, Option.bind_some, List.mapM_map]
  exact List.mapM_pure

/-- A number is read back as far as it is in range. -/
@[simp]
theorem natural?_natural {bound n m : Nat} : natural? bound (natural n) = some m ↔ m = n ∧ n ≤ bound := by
  simp [natural, natural?, and_comm, eq_comm]

end Json

end Equational
