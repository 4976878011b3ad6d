import Equational.Term.Hash
import Equational.Proofs.Term.Shape
import Mathlib.Data.List.Sort

/-! Equal terms write the same to every hasher. A term writes what its shape writes: flattening
changes neither the arguments that are written nor their number, and the digests of commutative
arguments are sorted, so the order that the shape puts them in is not seen. -/

namespace Equational.Term

variable {digest : List Nat → UInt64} {f : FunctionSymbol}

private theorem writtenArguments_cons (arg : Term) (args : List Term) :
    writtenArguments digest f (arg :: args) = writtenArguments digest f [arg] ++ writtenArguments digest f args := by
  cases arg with
  | var v => simp [writtenArguments]
  | const c => simp [writtenArguments]
  | node g inner =>
    simp only [writtenArguments, List.append_nil]
    split <;> simp

private theorem writtenArguments_eq_flatMap (args : List Term) :
    writtenArguments digest f args = args.flatMap fun arg => writtenArguments digest f [arg] := by
  induction args with
  | nil => rfl
  | cons arg args ih => rw [writtenArguments_cons, ih, List.flatMap_cons]

private theorem writtenArguments_append (xs ys : List Term) :
    writtenArguments digest f (xs ++ ys) = writtenArguments digest f xs ++ writtenArguments digest f ys := by
  rw [writtenArguments_eq_flatMap, List.flatMap_append, ← writtenArguments_eq_flatMap, ← writtenArguments_eq_flatMap]

private theorem writtenArguments_of_absorbed (associative : f.theory.isAssociative = true) (inner : List Term) :
    writtenArguments digest f [node f inner] = writtenArguments digest f inner := by
  simp [writtenArguments, associative]

private theorem writtenArguments_of_not_absorbed {arg : Term}
    (kept : f.theory.isAssociative = true → arg.head? ≠ some f) :
    writtenArguments digest f [arg] = [arg.written digest] := by
  cases arg with
  | var v => simp [writtenArguments]
  | const c => simp [writtenArguments]
  | node g inner =>
    have skip : (f.theory.isAssociative && g == f) = false := by
      cases associative : f.theory.isAssociative
      · rfl
      · simpa [head?] using kept associative
    simp [writtenArguments, skip]

private theorem sorted_digests_congr {xs ys : List (List Nat)} (same : xs.Perm ys) :
    (xs.map fun arg => (digest arg).toNat).mergeSort = (ys.map fun arg => (digest arg).toNat).mergeSort := by
  refine List.Perm.eq_of_sortedLE List.sortedLE_mergeSort List.sortedLE_mergeSort ?_
  exact (List.mergeSort_perm _ _).trans ((same.map _).trans (List.mergeSort_perm _ _).symm)

private theorem written_node_congr {xs ys : List Term} (aligned : Aligned f xs ys) :
    (node f xs).written digest = (node f ys).written digest := by
  simp only [written]
  cases commutative : f.theory.isCommutative with
  | false =>
    rw [Aligned, if_neg (by simp [commutative])] at aligned
    rw [aligned]
  | true =>
    have same : (writtenArguments digest f xs).Perm (writtenArguments digest f ys) := by
      rw [writtenArguments_eq_flatMap, writtenArguments_eq_flatMap ys]
      exact List.Perm.flatMap_right _ aligned.perm
    rw [if_pos rfl, if_pos rfl, sorted_digests_congr same, same.length_eq]

mutual

theorem written_shape (digest : List Nat → UInt64) (t : Term) : t.shape.written digest = t.written digest :=
  match t with
  | var v => rfl
  | const c => rfl
  | node f args => by
    have inside := writtenArguments_shapes digest f args
    rw [shape, written_node_congr (aligned_arrange f _)]
    simp only [written, inside]
termination_by structural t

theorem writtenArguments_shapes (digest : List Nat → UInt64) (f : FunctionSymbol) (args : List Term) :
    writtenArguments digest f (shapes f args) = writtenArguments digest f args :=
  match args with
  | [] => rfl
  | var v :: args => by
    rw [shapes_cons, writtenArguments_append, writtenArguments_shapes digest f args]
    rfl
  | const c :: args => by
    rw [shapes_cons, writtenArguments_append, writtenArguments_shapes digest f args]
    rfl
  | node g inner :: args => by
    have within := writtenArguments_shapes digest f inner
    have whole := written_shape digest (node g inner)
    have later := writtenArguments_shapes digest f args
    rw [shapes_cons, writtenArguments_append, writtenArguments_cons, later]
    congr 1
    by_cases absorbed : f.theory.isAssociative = true ∧ g = f
    · obtain ⟨associative, rfl⟩ := absorbed
      rw [parts_of_absorbed associative, writtenArguments_of_absorbed associative, within]
    · have kept : f.theory.isAssociative = true → (node g inner).head? ≠ some f := by
        intro associative root
        exact absorbed ⟨associative, by simpa [head?] using root⟩
      rw [parts_of_not_absorbed kept, writtenArguments_of_not_absorbed kept, ← whole]
      exact writtenArguments_of_not_absorbed (by rwa [head?_shape])
termination_by structural args

end

/-- Equal terms write the same sequence, whatever the digest of commutative arguments computes. -/
theorem written_eq_of_beq (digest : List Nat → UInt64) (s t : Term) (same : (s == t) = true) :
    s.written digest = t.written digest := by
  rw [← written_shape, beq_iff_shape.mp same, written_shape]

/-- A word nested to the right in one place and to the left in another, below a symbol that does not
see where it stands: the terms are equal and write the same. -/
theorem written_eq_of_beq_nested :
    let pair : FunctionSymbol := ⟨⟨0⟩, 2, .commutative, .default, .default⟩
    let word : FunctionSymbol := ⟨⟨1⟩, 2, .associative, .default, .default⟩
    let a : Term := .const ⟨⟨0⟩, .default⟩
    let x : Term := .var ⟨⟨0⟩, .default⟩
    let y : Term := .var ⟨⟨1⟩, .default⟩
    let left : Term := .node pair [.node word [x, .node word [y, a]], x]
    let right : Term := .node pair [x, .node word [.node word [x, y], a]]
    (left == right) = true ∧ left.written mix = right.written mix := by
  intro pair word a x y left right
  have same : (left == right) = true := by decide
  exact ⟨same, written_eq_of_beq mix left right same⟩

instance : LawfulHashable Term where
  hash_eq s t same := by
    change mix (s.written mix) = mix (t.written mix)
    rw [← written_shape, beq_iff_shape.mp same, written_shape]

end Equational.Term
