import Equational.Proofs.Term.Canonical

/-! Equality of terms against equational logic. The laws of the symbols are read as axioms over
terms in which associative applications are binary: nesting an associative application to the
left or to the right is the same, and a commutative symbol does not see the order of its
arguments. Equality decides what these axioms prove. -/

namespace Equational.Term

/-- The axioms. Each is a scheme over all terms, so that every instance of an axiom is one. -/
inductive Law : Term → Term → Prop
  | associativity {f : FunctionSymbol} (associative : f.theory.isAssociative = true) (x y z : Term) :
    Law (node f [node f [x, y], z]) (node f [x, node f [y, z]])
  | permutation {f : FunctionSymbol} (commutative : f.theory.isCommutative = true) {xs ys : List Term}
    (same : xs.Perm ys) : Law (node f xs) (node f ys)

/-- What the axioms prove. -/
inductive Provable : Term → Term → Prop
  | law {s t : Term} : Law s t → Provable s t
  | refl (t : Term) : Provable t t
  | symm {s t : Term} : Provable s t → Provable t s
  | trans {s t u : Term} : Provable s t → Provable t u → Provable s u
  | replace (f : FunctionSymbol) (before after : List Term) {s t : Term} :
    Provable s t → Provable (node f (before ++ s :: after)) (node f (before ++ t :: after))

/-- Arguments joined by binary applications. Only a list of one or none stands for something else:
an argument alone is itself. -/
def nest (f : FunctionSymbol) : List Term → Term
  | [] => node f []
  | [x] => x
  | x :: y :: rest => node f [x, nest f (y :: rest)]

mutual

/-- The term with each associative application read as a nest of binary ones. -/
def nested : Term → Term
  | var v => var v
  | const c => const c
  | node f args => if f.theory.isAssociative then nest f (nestedList args) else node f (nestedList args)

def nestedList : List Term → List Term
  | [] => []
  | arg :: args => nested arg :: nestedList args

end

/-- Whether every associative application has arguments to join. -/
def isJoined (t : Term) : Bool :=
  t.everyNode fun f args => !f.theory.isAssociative || decide (2 ≤ args.length)

section Forms

variable {f : FunctionSymbol} {args : List Term}

private theorem nestedList_eq_map (args : List Term) : nestedList args = args.map nested := by
  induction args with
  | nil => rfl
  | cons arg args ih => rw [nestedList, ih, List.map_cons]

private theorem nested_of_associative (associative : f.theory.isAssociative = true) (args : List Term) :
    (node f args).nested = nest f (args.map nested) := by
  rw [nested, if_pos associative, nestedList_eq_map]

private theorem nested_of_not_associative (plain : f.theory.isAssociative = false) (args : List Term) :
    (node f args).nested = node f (args.map nested) := by
  rw [nested, if_neg (by simp [plain]), nestedList_eq_map]

private theorem nest_cons {xs : List Term} (x : Term) (nonempty : xs ≠ []) :
    nest f (x :: xs) = node f [x, nest f xs] := by
  cases xs with
  | nil => exact absurd rfl nonempty
  | cons y rest => rfl

private theorem isJoined_node : (node f args).isJoined = true ↔
    (f.theory.isAssociative = true → 2 ≤ args.length) ∧ ∀ arg ∈ args, arg.isJoined = true := by
  rw [isJoined, everyNode_node]
  simp [isJoined, Classical.or_iff_not_imp_left]

end Forms

namespace Provable

variable {f : FunctionSymbol} {xs ys : List Term}

private theorem of_eq {s t : Term} (same : s = t) : Provable s t :=
  same ▸ refl s

private theorem node_congr (same : List.Forall₂ Provable xs ys) : Provable (node f xs) (node f ys) := by
  suffices general : ∀ before, Provable (node f (before ++ xs)) (node f (before ++ ys)) from general []
  induction same with
  | nil => exact fun before => refl _
  | @cons x y xs ys head _ ih =>
    intro before
    refine (replace f before xs head).trans ?_
    have rest := ih (before ++ [y])
    rwa [List.append_assoc, List.append_assoc, List.singleton_append, List.singleton_append] at rest

private theorem node_right (x : Term) {s t : Term} (same : Provable s t) : Provable (node f [x, s]) (node f [x, t]) :=
  replace f [x] [] same

private theorem nest_congr (same : List.Forall₂ Provable xs ys) : Provable (nest f xs) (nest f ys) := by
  induction same with
  | nil => exact refl _
  | @cons x y xs ys head tail ih =>
    cases tail with
    | nil => exact head
    | cons next rest =>
      rw [nest_cons x (by simp), nest_cons y (by simp)]
      exact (replace f [] _ head).trans (node_right y ih)

private theorem nest_append (associative : f.theory.isAssociative = true) (left : xs ≠ []) (right : ys ≠ []) :
    Provable (node f [nest f xs, nest f ys]) (nest f (xs ++ ys)) := by
  induction xs with
  | nil => exact absurd rfl left
  | cons x xs ih =>
    by_cases single : xs = []
    · subst single
      exact of_eq (nest_cons x right).symm
    · rw [nest_cons x single, List.cons_append, nest_cons x (by simp [right])]
      exact (law (.associativity associative ..)).trans (node_right x (ih single))

private theorem nest_flatten (associative : f.theory.isAssociative = true) {lists : List (List Term)}
    (each : ∀ xs ∈ lists, xs ≠ []) : Provable (nest f (lists.map (nest f))) (nest f lists.flatten) := by
  induction lists with
  | nil => exact refl _
  | cons xs lists ih =>
    have tail := ih fun ys member => each ys (List.mem_cons_of_mem xs member)
    have head := each xs (by simp)
    cases lists with
    | nil => simpa [nest] using refl (nest f xs)
    | cons ys rest =>
      have more : (ys :: rest).flatten ≠ [] := by simp [each ys (by simp)]
      rw [List.map_cons, nest_cons _ (by simp), List.flatten_cons]
      exact (node_right _ tail).trans (nest_append associative head more)

private theorem nest_perm (associative : f.theory.isAssociative = true) (commutative : f.theory.isCommutative = true)
    (same : xs.Perm ys) : Provable (nest f xs) (nest f ys) := by
  induction same with
  | nil => exact refl _
  | @cons x xs ys tail ih =>
    by_cases single : xs = []
    · subst single
      exact of_eq (by rw [List.nil_perm.mp tail])
    · rw [nest_cons x single, nest_cons x fun none => single (List.perm_nil.mp (none ▸ tail))]
      exact node_right x ih
  | swap x y rest =>
    have exchange : Provable (node f [y, x]) (node f [x, y]) := law (.permutation commutative (.swap x y []))
    by_cases pair : rest = []
    · subst pair
      exact exchange
    · rw [nest_cons y (by simp), nest_cons x pair, nest_cons x (by simp), nest_cons y pair]
      exact ((law (.associativity associative y x _)).symm.trans (replace f [] _ exchange)).trans
        (law (.associativity associative x y _))
  | trans _ _ first second => exact first.trans second

private theorem nest_aligned (associative : f.theory.isAssociative = true) (aligned : Aligned f xs ys) :
    Provable (nest f xs) (nest f ys) := by
  cases commutative : f.theory.isCommutative with
  | true => exact nest_perm associative commutative aligned.perm
  | false => exact of_eq (by rw [Aligned, if_neg (by simp [commutative])] at aligned; rw [aligned])

private theorem node_aligned (aligned : Aligned f xs ys) : Provable (node f xs) (node f ys) := by
  cases commutative : f.theory.isCommutative with
  | true => exact law (.permutation commutative aligned.perm)
  | false => exact of_eq (by rw [Aligned, if_neg (by simp [commutative])] at aligned; rw [aligned])

end Provable

/-! A joined term contributes at least one argument to a comparison. -/

section Contributions

variable {f : FunctionSymbol} {t : Term}

private theorem parts_ne_nil (joined : t.isJoined = true) : parts f t ≠ [] := by
  induction t with
  | var v => simp [parts, shapes]
  | const c => simp [parts, shapes]
  | node g args ih =>
    by_cases absorbed : f.theory.isAssociative = true ∧ (node g args).head? = some f
    · obtain ⟨associative, root⟩ := absorbed
      obtain rfl : g = f := by simpa [head?] using root
      obtain ⟨enough, each⟩ := isJoined_node.mp joined
      cases args with
      | nil => simpa using enough associative
      | cons arg rest =>
        rw [parts_of_absorbed associative, shapes_cons]
        exact List.append_ne_nil_of_left_ne_nil (ih arg (by simp) (each arg (by simp))) _
    · rw [not_and] at absorbed
      simp [parts_of_not_absorbed absorbed]

end Contributions

/-! What the axioms prove equal has one shape, and the axioms prove that a term is its shape. -/

private theorem Law.shape_eq {s t : Term} (law : Law s t) : s.shape = t.shape := by
  cases law with
  | @associativity f associative x y z =>
    refine shape_node_eq_iff.mpr ⟨rfl, .of_eq ?_⟩
    simp only [shapes_cons f (node f _), shapes_cons f x, shapes_cons f y, parts_of_absorbed associative]
    simp [shapes, parts]
  | permutation commutative same =>
    exact shape_node_eq_iff.mpr ⟨rfl, (Aligned.of_perm commutative same).shapes⟩

private theorem Provable.shape_eq {s t : Term} (proof : Provable s t) : s.shape = t.shape := by
  induction proof with
  | law axioms => exact axioms.shape_eq
  | refl t => rfl
  | symm _ ih => exact ih.symm
  | trans _ _ first second => exact first.trans second
  | replace f before after _ ih =>
    refine shape_node_eq_iff.mpr ⟨rfl, ?_⟩
    rw [shapes_append, shapes_append, shapes_cons, shapes_cons f _ after]
    exact (Aligned.refl f _).append ((parts_congr ih).append (.refl f _))

private theorem parts_nest {f : FunctionSymbol} (associative : f.theory.isAssociative = true) {xs : List Term}
    (nonempty : xs ≠ []) : parts f (nest f xs) = shapes f xs := by
  induction xs with
  | nil => exact absurd rfl nonempty
  | cons x xs ih =>
    by_cases single : xs = []
    · subst single
      rfl
    · rw [nest_cons x single, parts_of_absorbed associative, shapes_cons, shapes_cons f x, ← ih single]
      rfl

private theorem shape_nested {t : Term} (joined : t.isJoined = true) : t.nested.shape = t.shape := by
  induction t with
  | var v => rfl
  | const c => rfl
  | node f args ih =>
    obtain ⟨enough, each⟩ := isJoined_node.mp joined
    have inside : Aligned f (shapes f (args.map nested)) (shapes f args) :=
      shapes_congr
        (List.forall₂_map_left_iff.mpr (List.forall₂_same.mpr fun arg member => ih arg member (each arg member)))
    cases associative : f.theory.isAssociative with
    | false =>
      rw [nested_of_not_associative associative]
      exact shape_node_eq_iff.mpr ⟨rfl, inside⟩
    | true =>
      rw [nested_of_associative associative]
      obtain ⟨x, y, rest, rfl⟩ : ∃ x y rest, args = x :: y :: rest := by
        match args, enough associative with
        | x :: y :: rest, _ => exact ⟨x, y, rest, rfl⟩
      have root : nest f ((x :: y :: rest).map nested) = node f [x.nested, nest f ((y :: rest).map nested)] :=
        nest_cons _ (by simp)
      rw [root]
      refine shape_node_eq_iff.mpr ⟨rfl, .trans (.of_eq ?_) inside⟩
      rw [← parts_of_absorbed associative, ← root]
      exact parts_nest associative (by simp)

private theorem provable_parts {f : FunctionSymbol} {t : Term} (joined : t.isJoined = true)
    (whole : Provable t.nested t.shape.nested) : Provable t.nested (nest f ((parts f t).map nested)) := by
  by_cases absorbed : f.theory.isAssociative = true ∧ t.head? = some f
  · obtain ⟨associative, root⟩ := absorbed
    obtain ⟨args, rfl⟩ := exists_of_head? root
    rw [shape, nested_of_associative associative (arrange f _)] at whole
    rw [parts_of_absorbed associative]
    exact whole.trans (.nest_aligned associative ((aligned_arrange f _).map nested))
  · rw [not_and] at absorbed
    rw [parts_of_not_absorbed absorbed]
    exact whole

private theorem provable_shape {t : Term} (joined : t.isJoined = true) : Provable t.nested t.shape.nested := by
  induction t with
  | var v => exact .refl _
  | const c => exact .refl _
  | node f args ih =>
    have each := (isJoined_node.mp joined).2
    cases associative : f.theory.isAssociative with
    | false =>
      rw [shape, nested_of_not_associative associative, nested_of_not_associative associative,
        shapes_of_not_associative associative]
      refine .trans (.node_congr ?_) (.symm (.node_aligned ((aligned_arrange f _).map nested)))
      rw [List.map_map, List.forall₂_map_left_iff, List.forall₂_map_right_iff]
      exact List.forall₂_same.mpr fun arg member => ih arg member (each arg member)
    | true =>
      rw [shape, nested_of_associative associative, nested_of_associative associative]
      refine .trans ?_ (.symm (.nest_aligned associative ((aligned_arrange f _).map nested)))
      -- Each argument becomes the nest of what it contributes, then these nests are joined.
      have first : Provable (nest f (args.map nested))
          (nest f ((args.map fun arg => (parts f arg).map nested).map (nest f))) := by
        refine .nest_congr ?_
        rw [List.map_map, List.forall₂_map_left_iff, List.forall₂_map_right_iff]
        exact List.forall₂_same.mpr fun arg member =>
          provable_parts (each arg member) (ih arg member (each arg member))
      refine first.trans (.trans (.nest_flatten associative ?_) (.of_eq (congrArg (nest f) ?_)))
      · intro xs member
        obtain ⟨arg, found, rfl⟩ := List.mem_map.mp member
        simpa using parts_ne_nil (each arg found)
      · rw [shapes_eq_flatMap, List.map_flatMap, List.flatMap]

/-- Equality decides the laws: two joined terms are equal exactly when their readings as nests are
provably equal. Whatever the terms, equality is an equivalence that every symbol respects. -/
theorem beq_iff_provable :
    (∀ s t : Term, s.isJoined = true → t.isJoined = true → ((s == t) = true ↔ Provable s.nested t.nested)) ∧
      Equivalence (fun s t : Term => (s == t) = true) ∧
      ∀ (f : FunctionSymbol) (xs ys : List Term), List.Forall₂ (fun x y => (x == y) = true) xs ys →
        (node f xs == node f ys) = true := by
  refine ⟨?_, ⟨BEq.refl, BEq.symm, BEq.trans⟩, ?_⟩
  · intro s t left right
    rw [beq_iff_shape]
    constructor
    · intro same
      have through : Provable s.nested t.shape.nested := same ▸ provable_shape left
      exact through.trans (provable_shape right).symm
    · intro proof
      rw [← shape_nested left, ← shape_nested right]
      exact proof.shape_eq
  · intro f xs ys each
    refine beq_iff_shape.mpr (shape_node_eq_iff.mpr ⟨rfl, shapes_congr ?_⟩)
    exact each.imp fun _ _ same => beq_iff_shape.mp same

/-- Sums that are nested and ordered differently are provably equal; below a symbol that is only
associative the order of two of them counts. -/
theorem beq_iff_provable_sums :
    let sum : FunctionSymbol := ⟨⟨0⟩, 2, .associativeCommutative, .default, .default⟩
    let word : FunctionSymbol := ⟨⟨1⟩, 2, .associative, .default, .default⟩
    let a : Term := .const ⟨⟨0⟩, .default⟩
    let x : Term := .var ⟨⟨0⟩, .default⟩
    let left : Term := .node sum [a, .node sum [x, a]]
    let right : Term := .node sum [x, a, a]
    (left.isJoined = true ∧ right.isJoined = true ∧ Provable left.nested right.nested) ∧
      (Term.node word [left, a, x]).isJoined = true ∧ (Term.node word [a, right, x]).isJoined = true ∧
      ¬ Provable (Term.node word [left, a, x]).nested (Term.node word [a, right, x]).nested := by
  intro sum word a x left right
  have joined : left.isJoined = true ∧ right.isJoined = true := by decide
  have words : (Term.node word [left, a, x]).isJoined = true ∧
      (Term.node word [a, right, x]).isJoined = true := by decide
  have equal : (left == right) = true := by decide
  have different : (Term.node word [left, a, x] == Term.node word [a, right, x]) = false := by decide
  refine ⟨⟨joined.1, joined.2, (beq_iff_provable.1 left right joined.1 joined.2).mp equal⟩, words.1, words.2, ?_⟩
  intro proof
  have same := (beq_iff_provable.1 _ _ words.1 words.2).mpr proof
  rw [different] at same
  exact Bool.false_ne_true same

end Equational.Term
