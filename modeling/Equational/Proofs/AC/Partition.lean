import Equational.Proofs.AC.Assembly
import Mathlib.Algebra.Order.BigOperators.Group.List

/-! The solution vectors behind an assignment. What the atoms stand for is partitioned among
solution vectors, a constant among a single one, so all of these are usable and shares were
drawn for them. Selecting those shares loses nothing of what the atoms stand for. -/

namespace Equational.AC

/-- One summand makes up a singleton, and the others are idle. -/
theorem exists_of_sum_eq_singleton {ι α : Type} {l : List ι} {k : ι → Nat} {g : ι → α} {s : α}
    (sum : (l.map fun i => k i • ({g i} : Multiset α)).sum = {s}) :
    ∃ before i after, l = before ++ i :: after ∧ k i = 1 ∧ g i = s ∧ ∀ j ∈ before ++ after, k j = 0 := by
  induction l with
  | nil => exact absurd sum (Multiset.singleton_ne_zero s).symm
  | cons i l ih =>
    rw [List.map_cons, List.sum_cons] at sum
    by_cases idle : k i = 0
    · rw [idle, zero_nsmul, zero_add] at sum
      obtain ⟨before, j, after, rfl, single, same, none⟩ := ih sum
      exact ⟨i :: before, j, after, rfl, single, same, List.forall_mem_cons.mpr ⟨idle, none⟩⟩
    · have cards := congrArg Multiset.card sum
      rw [Multiset.card_add, Multiset.card_nsmul, Multiset.card_singleton, Multiset.card_singleton, mul_one] at cards
      have rest : (l.map fun i => k i • ({g i} : Multiset α)).sum = 0 := by
        rw [← Multiset.card_eq_zero]
        omega
      have single : k i = 1 := by omega
      rw [rest, single, one_nsmul, add_zero, Multiset.singleton_inj] at sum
      refine ⟨[], i, l, rfl, single, sum, ?_⟩
      intro j member
      have empty := List.sum_eq_zero_iff.mp rest _ (List.mem_map_of_mem member)
      simpa using congrArg Multiset.card empty

/-- Where all others are idle, what serves is the one that does. -/
theorem eq_of_idle {ι : Type} {k : ι → Nat} {l before after : List ι} {i p : ι} (shape : l = before ++ i :: after)
    (idle : ∀ q ∈ before ++ after, k q = 0) (member : p ∈ l) (serves : k p ≠ 0) : p = i := by
  rw [shape, List.mem_append, List.mem_cons] at member
  rcases member with early | same | late
  · exact absurd (idle p (List.mem_append_left _ early)) serves
  · exact same
  · exact absurd (idle p (List.mem_append_right _ late)) serves

/-- Terms to which equations come down: apart, of the domain sort, and each of them a variable or
a ground term that is no combination itself. -/
structure Atomic (f : FunctionSymbol) (atoms : List Term) : Prop where
  apart : atoms.Pairwise fun a b => (b == a) = false
  sort : ∀ a ∈ atoms, a.sort = f.domain
  binary : ∀ a ∈ atoms, a.isAtLeastBinary f = true
  constant : ∀ a ∈ atoms, a.isVariable = false → a.isCanonical = true ∧ a.isGround = true ∧ a.head? ≠ some f

section Atomic

variable {f : FunctionSymbol} {atoms : List Term} (atomic : Atomic f atoms)
include atomic

theorem Atomic.column {j : Fin atoms.length} (plain : (atoms.get j).isVariable = false) :
    (atoms.get j).isCanonical = true ∧ (atoms.get j).isGround = true ∧ (atoms.get j).head? ≠ some f :=
  atomic.constant _ (List.getElem_mem j.isLt) plain

/-- A constant is the same under every assignment. -/
theorem Atomic.shape_instantiate {j : Fin atoms.length} (plain : (atoms.get j).isVariable = false)
    (m : Variable → Term) :
    ((atoms.get j).instantiate m).shape = (atoms.get j).shape := by
  obtain ⟨canonical, ground, _⟩ := atomic.column plain
  rw [← Term.shape_instantiate_var canonical]
  refine Term.instantiate_congr_left ?_
  intro v occurs
  rw [List.isEmpty_iff.mp ground] at occurs
  cases occurs

theorem Atomic.bag_instantiate {j : Fin atoms.length} (plain : (atoms.get j).isVariable = false)
    (m : Variable → Term) :
    Term.bag f ((atoms.get j).instantiate m) = {(atoms.get j).shape} := by
  rw [Term.bag_congr (atomic.shape_instantiate plain m),
    Term.bag_of_not_rooted (atomic.column plain).2.2]

/-- Atoms with the same shape stand in the same column. -/
theorem Atomic.eq_of_shape {i j : Fin atoms.length} (same : (atoms.get i).shape = (atoms.get j).shape) : i = j := by
  by_contra different
  have distinct := List.pairwise_iff_getElem.mp atomic.apart
  rcases Nat.lt_or_gt_of_ne fun equal => different (Fin.ext equal) with below | above
  · exact Term.beq_eq_false_iff_shape.mp (distinct i j i.isLt j.isLt below) same.symm
  · exact Term.beq_eq_false_iff_shape.mp (distinct j i j.isLt i.isLt above) same

end Atomic

def pieces {n : Nat} (parts : List (Term × (Fin n → Nat))) (vector : List Nat) : List Term :=
  (parts.filter fun p => List.ofFn p.2 == vector).map Prod.fst

theorem mem_pieces {n : Nat} {parts : List (Term × (Fin n → Nat))} {vector : List Nat} {s : Term} :
    s ∈ pieces parts vector ↔ ∃ p ∈ parts, List.ofFn p.2 = vector ∧ p.1 = s := by
  simp [pieces, and_assoc]

/-- What the atoms stand for under the assignment, each piece with the vector along which it is
handed out. -/
structure Partition (f : FunctionSymbol) (atoms : List Term) (m : Variable → Term)
    (parts : List (Term × (Fin atoms.length → Nat))) : Prop where
  positive : ∀ p ∈ parts, p.2 ≠ 0
  covers : ∀ j : Fin atoms.length, Term.bag f ((atoms.get j).instantiate m) = (parts.map fun p => p.2 j • {p.1}).sum

section Partition

variable {f : FunctionSymbol} {atoms : List Term} {m : Variable → Term}
  {parts : List (Term × (Fin atoms.length → Nat))} (partition : Partition f atoms m parts)
include partition

private theorem Partition.mem_bag {p : Term × (Fin atoms.length → Nat)} (member : p ∈ parts) {j : Fin atoms.length}
    (some : p.2 j ≠ 0) :
    p.1 ∈ Term.bag f ((atoms.get j).instantiate m) := by
  obtain ⟨before, after, rfl⟩ := List.append_of_mem member
  rw [partition.covers j, List.map_append, List.map_cons, List.sum_append, List.sum_cons, Multiset.mem_add,
    Multiset.mem_add]
  exact .inr (.inl (Multiset.mem_nsmul.mpr ⟨some, Multiset.mem_singleton_self _⟩))

theorem Partition.exists_mem_bag {p : Term × (Fin atoms.length → Nat)} (member : p ∈ parts) :
    ∃ j : Fin atoms.length, p.1 ∈ Term.bag f ((atoms.get j).instantiate m) := by
  obtain ⟨j, some⟩ := Function.ne_iff.mp (partition.positive p member)
  exact ⟨j, partition.mem_bag member some⟩

private theorem Partition.constant (atomic : Atomic f atoms) {j : Fin atoms.length}
    (plain : (atoms.get j).isVariable = false) :
    ∃ before p after, parts = before ++ p :: after ∧ p.2 j = 1 ∧ p.1 = (atoms.get j).shape ∧
    ∀ q ∈ before ++ after, q.2 j = 0 :=
  exists_of_sum_eq_singleton
    ((partition.covers j).symm.trans (atomic.bag_instantiate plain m))

private theorem Partition.serves_constant (atomic : Atomic f atoms) {p : Term × (Fin atoms.length → Nat)}
    (member : p ∈ parts) {j : Fin atoms.length} (plain : (atoms.get j).isVariable = false) (serves : p.2 j ≠ 0) :
    p.2 j = 1 ∧ constantShares atoms (List.ofFn p.2) = [((atoms.get j), 1)] ∧
    pieces parts (List.ofFn p.2) = [(atoms.get j).shape] := by
  obtain ⟨before, q, after, shape, single, piece, none⟩ := partition.constant atomic plain
  have idle : ∀ r ∈ before ++ after, List.ofFn r.2 ≠ List.ofFn q.2 := by
    intro r inside same
    have equal := congrFun (List.ofFn_injective same) j
    rw [none r inside, single] at equal
    cases equal
  obtain rfl : p = q := eq_of_idle shape none member serves
  refine ⟨single, ?_, ?_⟩
  · rw [← single]
    refine constantShares_eq_singleton plain (by omega) ?_
    intro i other taken
    have part := partition.mem_bag member taken
    rw [atomic.bag_instantiate other m, Multiset.mem_singleton, piece] at part
    exact atomic.eq_of_shape part.symm
  · have quiet (l : List (Term × (Fin atoms.length → Nat))) (sub : ∀ r ∈ l, r ∈ before ++ after) :
        (l.filter fun r => List.ofFn r.2 == List.ofFn p.2) = [] := by
      refine List.filter_eq_nil_iff.mpr ?_
      intro r inside
      simpa using idle r (sub r inside)
    rw [pieces, shape, List.filter_append, List.filter_cons_of_pos (by simp),
      quiet before fun r inside => List.mem_append_left _ inside, quiet after fun r inside =>
      List.mem_append_right _ inside, List.nil_append, List.map_singleton, piece]

/-- Every vector of the partition is usable. -/
theorem Partition.isUsable (atomic : Atomic f atoms) {p : Term × (Fin atoms.length → Nat)} (member : p ∈ parts) :
    isUsable atoms (List.ofFn p.2) = true := by
  simp only [AC.isUsable]
  by_cases serves : ∃ j : Fin atoms.length, (atoms.get j).isVariable = false ∧ p.2 j ≠ 0
  · obtain ⟨j, plain, taken⟩ := serves
    rw [(partition.serves_constant atomic member plain taken).2.1]
    rfl
  · push Not at serves
    rw [constantShares_eq_nil serves]

end Partition

/-- The shares were drawn for vectors without repetition, among them those of all the parts. -/
structure Provided (f : FunctionSymbol) (atoms : List Term) (n : Nat) (parts : List (Term × (Fin atoms.length → Nat)))
    (shares : List Share) : Prop where
  drawn : ∃ vectors, vectors.Nodup ∧ Drawn f atoms n vectors shares
  present : ∀ p ∈ parts, ∃ x ∈ shares, x.vector = List.ofFn p.2

def selection {n : Nat} (parts : List (Term × (Fin n → Nat))) (shares : List Share) : List Share :=
  shares.filter fun x => parts.any fun p => List.ofFn p.2 == x.vector

theorem mem_selection {n : Nat} {parts : List (Term × (Fin n → Nat))} {shares : List Share} {x : Share} :
    x ∈ selection parts shares ↔ x ∈ shares ∧ ∃ p ∈ parts, List.ofFn p.2 = x.vector := by
  simp [selection]

theorem copies_ofFn {n : Nat} {x : Share} {v : Fin n → Nat} (vector : x.vector = List.ofFn v) (j : Fin n) :
    x.copies j = v j := by
  rw [Share.copies, vector, List.getD_eq_getElem _ _ (by simp), List.getElem_ofFn]

section Selection

variable {f : FunctionSymbol} {atoms : List Term} {n : Nat} {m : Variable → Term}
  {parts : List (Term × (Fin atoms.length → Nat))} {shares : List Share} (provided : Provided f atoms n parts shares)
include provided

private theorem Provided.nodup : ((selection parts shares).map Share.vector).Nodup := by
  obtain ⟨vectors, distinct, drawn⟩ := provided.drawn
  rw [← drawn.map_vector] at distinct
  exact distinct.sublist (List.filter_sublist.map _)

private theorem Provided.exists_selected {p : Term × (Fin atoms.length → Nat)} (member : p ∈ parts) :
    ∃ x ∈ selection parts shares, x.vector = List.ofFn p.2 := by
  obtain ⟨x, inside, vector⟩ := provided.present p member
  exact ⟨x, mem_selection.mpr ⟨inside, p, member, vector.symm⟩, vector⟩

/-- The selected shares hand out all the parts. -/
theorem Provided.sum_pieces (j : Fin atoms.length) :
    ((selection parts shares).map fun x => x.copies j • (pieces parts x.vector : Multiset Term)).sum =
      (parts.map fun p => p.2 j • {p.1}).sum := by
  have distinct := provided.nodup
  have present := fun p (member : p ∈ parts) => provided.exists_selected member
  generalize selection parts shares = chosen at distinct present
  induction parts with
  | nil =>
    refine List.sum_eq_zero ?_
    intro b member
    obtain ⟨x, _, rfl⟩ := List.mem_map.mp member
    exact smul_zero _
  | cons p parts ih =>
    obtain ⟨⟨x, inside, vector⟩, later⟩ := List.forall_mem_cons.mp present
    have alone : chosen.Pairwise fun x y => x.vector = List.ofFn p.2 → ¬ y.vector = List.ofFn p.2 := by
      refine (List.pairwise_map.mp distinct).imp ?_
      intro x y different left right
      exact different (left.trans right.symm)
    have split : (chosen.map fun x => x.copies j • (pieces (p :: parts) x.vector : Multiset Term)) =
        chosen.map fun x => (if x.vector = List.ofFn p.2 then x.copies j • {p.1} else 0) +
          x.copies j • (pieces parts x.vector : Multiset Term) := by
      refine List.map_congr_left ?_
      intro x _
      by_cases same : x.vector = List.ofFn p.2
      · rw [if_pos same, ← smul_add, pieces, List.filter_cons_of_pos (by simp [same])]
        rfl
      · rw [if_neg same, zero_add, pieces, List.filter_cons_of_neg (by simpa using Ne.symm same)]
        rfl
    rw [split, List.sum_map_add, List.sum_map_ite_of_pairwise alone inside vector, copies_ofFn vector, List.map_cons,
      List.sum_cons]
    refine congrArg _ (ih ⟨provided.drawn, ?_⟩ later)
    intro q member
    exact provided.present q (List.mem_cons_of_mem p member)

variable (partition : Partition f atoms m parts) (atomic : Atomic f atoms)
include partition atomic

/-- A selected share that serves a constant hands out this constant. -/
theorem Provided.constant {x : Share} (member : x ∈ selection parts shares) {j : Fin atoms.length}
    (plain : (atoms.get j).isVariable = false) (serves : x.copies j ≠ 0) :
    x.copies j = 1 ∧ x.term = (atoms.get j) ∧ pieces parts x.vector = [(atoms.get j).shape] := by
  obtain ⟨inside, p, part, vector⟩ := mem_selection.mp member
  rw [copies_ofFn vector.symm] at serves ⊢
  obtain ⟨once, single, piece⟩ := partition.serves_constant atomic part plain serves
  obtain ⟨vectors, _, drawn⟩ := provided.drawn
  rw [vector] at single piece
  refine ⟨once, ?_, piece⟩
  rcases drawn.term x inside with ⟨count, others, found⟩ | ⟨found, _⟩
  · rw [single] at found
    exact (congrArg Prod.fst (List.cons.inj found).1).symm
  · rw [single] at found
    cases found

private theorem Provided.givenOnce {j : Fin atoms.length} (plain : (atoms.get j).isVariable = false) :
    GivenOnce (selection parts shares) j (atoms.get j) := by
  obtain ⟨early, p, late, shape, once, _, idle⟩ := partition.constant atomic plain
  have part : p ∈ parts := by simp [shape]
  obtain ⟨x, member, vector⟩ := provided.exists_selected part
  have copies : x.copies j = 1 := (copies_ofFn vector j).trans once
  have handed := provided.constant partition atomic member plain (copies ▸ Nat.one_ne_zero)
  have distinct := provided.nodup
  obtain ⟨before, after, split⟩ := List.append_of_mem member
  refine ⟨before, x, after, split, copies, handed.2.1, ?_⟩
  intro y other
  by_contra serves
  have chosen : y ∈ selection parts shares := by
    rw [split]
    simpa [or_left_comm] using .inr (List.mem_append.mp other)
  obtain ⟨_, q, part', vector'⟩ := mem_selection.mp chosen
  rw [copies_ofFn vector'.symm] at serves
  obtain rfl : q = p := eq_of_idle shape idle part' serves
  rw [split, List.map_append, List.map_cons, List.nodup_append, List.nodup_cons] at distinct
  have same : y.vector = x.vector := vector'.symm.trans vector.symm
  rcases List.mem_append.mp other with inside | inside
  · exact distinct.2.2 _ (List.mem_map_of_mem inside) _ (List.mem_cons_self ..) same
  · exact distinct.2.1.1 (same ▸ List.mem_map_of_mem inside)

/-- The selection suffices when everything stands for something. -/
theorem Provided.suffices (laws : f.theory = .associativeCommutative) (binary : ∀ v, (m v).isAtLeastBinary f = true) :
    Suffices atoms (selection parts shares) where
  served j := by
    have some : Term.bag f ((atoms.get j).instantiate m) ≠ 0 := by
      have whole := (Term.hereditary_isAtLeastBinary f).instantiate (atomic.binary _ (List.getElem_mem j.isLt)) binary
      exact Multiset.card_pos.mp (Term.card_bag_pos laws whole)
    rw [partition.covers j] at some
    obtain ⟨p, part, serves⟩ : ∃ p ∈ parts, p.2 j ≠ 0 := by
      by_contra none
      push Not at none
      refine some (List.sum_eq_zero ?_)
      intro b inside
      obtain ⟨p, part, rfl⟩ := List.mem_map.mp inside
      rw [none p part, zero_nsmul]
    obtain ⟨x, chosen, vector⟩ := provided.exists_selected part
    exact ⟨x, chosen, (copies_ofFn vector j).symm ▸ Nat.pos_of_ne_zero serves⟩
  once j plain := provided.givenOnce partition atomic plain

end Selection

end Equational.AC
