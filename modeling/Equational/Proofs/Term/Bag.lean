import Equational.Proofs.Term.Canonical
import Mathlib.Algebra.BigOperators.Group.Multiset.Basic

/-! Terms as multisets under an associative-commutative symbol. A term is the bag of what it
contributes to a comparison under the symbol, and a combination is the sum of its arguments.
Terms in which every application of the symbol has at least two arguments are equal when
their bags are. -/

namespace Equational.Term

variable {f : FunctionSymbol}

/-- The shapes of the parts of a term under `f`, which is the term itself unless `f` is applied. -/
noncomputable def bag (f : FunctionSymbol) (t : Term) : Multiset Term :=
  parts f t

theorem bag_of_not_rooted {t : Term} (other : t.head? ≠ some f) : bag f t = {t.shape} := by
  rw [bag, parts_of_not_absorbed fun _ => other]
  rfl

private theorem coe_flatMap_parts (args : List Term) : ((args.flatMap (parts f) : List Term) : Multiset Term) =
    (args.map (bag f)).sum := by
  induction args with
  | nil => rfl
  | cons arg args ih =>
    rw [List.flatMap_cons, ← Multiset.coe_add, ih, List.map_cons, List.sum_cons]
    rfl

section Laws

variable (laws : f.theory = .associativeCommutative)
include laws

theorem isAssociative_of_laws : f.theory.isAssociative = true := by
  simp [laws, SymbolTheory.isAssociative]

private theorem isCommutative_of_laws : f.theory.isCommutative = true := by
  simp [laws, SymbolTheory.isCommutative]

omit laws in
theorem bag_congr {s t : Term} (same : s.shape = t.shape) : bag f s = bag f t :=
  Multiset.coe_eq_coe.mpr (parts_congr same).perm

theorem bag_node (args : List Term) : bag f (node f args) = (args.map (bag f)).sum := by
  rw [bag, parts_of_absorbed (isAssociative_of_laws laws), shapes_eq_flatMap, coe_flatMap_parts]

theorem bag_app (args : List Term) : bag f (app f args) = (args.map (bag f)).sum := by
  rw [bag_congr (shape_app (by simp [laws]) args), bag_node laws]

private theorem bag_instantiate_app (args : List Term) (m : Variable → Term) :
    bag f ((app f args).instantiate m) = (args.map fun arg => bag f (arg.instantiate m)).sum := by
  rw [bag_congr (instantiate_app m f args), bag_app laws, List.map_map]
  rfl

theorem bag_instantiate_node (args : List Term) (m : Variable → Term) :
    bag f ((node f args).instantiate m) = (args.map fun arg => bag f (arg.instantiate m)).sum := by
  rw [instantiate_node, bag_app laws, List.map_map]
  rfl

/-- What a bag contains is in shape and stands for one. -/
theorem of_mem_bag {s t : Term} (member : s ∈ bag f t) : s.shape = s ∧ s.head? ≠ some f := by
  induction t with
  | var v =>
    rw [bag_of_not_rooted (by simp [head?]), Multiset.mem_singleton] at member
    subst member
    exact ⟨rfl, by simp [shape, head?]⟩
  | const c =>
    rw [bag_of_not_rooted (by simp [head?]), Multiset.mem_singleton] at member
    subst member
    exact ⟨rfl, by simp [shape, head?]⟩
  | node g args ih =>
    by_cases rooted : g = f
    · subst rooted
      rw [bag_node laws, ← coe_flatMap_parts, Multiset.mem_coe, List.mem_flatMap] at member
      obtain ⟨arg, inside, found⟩ := member
      exact ih arg inside found
    · rw [bag_of_not_rooted (by simpa [head?] using rooted), Multiset.mem_singleton] at member
      subst member
      rw [head?_shape]
      exact ⟨shape_shape _, by simpa [head?] using rooted⟩

theorem bag_of_mem_bag {s t : Term} (member : s ∈ bag f t) : bag f s = {s} := by
  obtain ⟨same, single⟩ := of_mem_bag laws member
  rw [bag_of_not_rooted single, same]

end Laws

/-- Every application of `f` in the term has at least two arguments. -/
def isAtLeastBinary (f : FunctionSymbol) (t : Term) : Bool :=
  t.everyNode fun g args => g != f || 2 ≤ args.length

theorem isAtLeastBinary_node {g : FunctionSymbol} {args : List Term} :
    (node g args).isAtLeastBinary f = true ↔ (g = f → 2 ≤ args.length) ∧
    ∀ arg ∈ args, arg.isAtLeastBinary f = true := by
  rw [isAtLeastBinary, everyNode_node]
  refine and_congr_left ?_
  intro _
  simp [Classical.or_iff_not_imp_left]

theorem length_le_length_spliced {args : List Term} (each : ∀ arg ∈ args, arg.isAtLeastBinary f = true) :
    args.length ≤ (spliced f args).length := by
  fun_induction spliced f args with
  | case1 => omega
  | case2 g inner args same ih =>
    obtain ⟨first, rest⟩ := List.forall_mem_cons.mp each
    have many := (isAtLeastBinary_node.mp first).1 (by simpa using same)
    have later := ih rest
    rw [List.length_append, List.length_cons]
    omega
  | case3 g inner args _ ih =>
    have later := ih (List.forall_mem_cons.mp each).2
    rw [List.length_cons, List.length_cons]
    omega
  | case4 arg args _ ih =>
    have later := ih (List.forall_mem_cons.mp each).2
    rw [List.length_cons, List.length_cons]
    omega

private theorem isAtLeastBinary_splices {g : FunctionSymbol} {args : List Term}
    (each : ∀ arg ∈ args, arg.isAtLeastBinary f = true)
    (many : (g != f || 2 ≤ args.length) = true) : (g != f || 2 ≤ (spliced g args).length) = true := by
  by_cases same : g = f
  · subst same
    have kept := length_le_length_spliced each
    simp only [bne_self_eq_false, Bool.false_or, decide_eq_true_eq] at many ⊢
    omega
  · simp [same]

private theorem isAtLeastBinary_app {g : FunctionSymbol} {args : List Term} (many : g = f → 2 ≤ args.length)
    (each : ∀ arg ∈ args, arg.isAtLeastBinary f = true) : (app g args).isAtLeastBinary f = true :=
  everyNode_app (fun _ => isAtLeastBinary_splices) (by simpa [Classical.or_iff_not_imp_left] using many) each

theorem hereditary_isAtLeastBinary (f : FunctionSymbol) : Hereditary fun t => t.isAtLeastBinary f = true :=
  hereditary_everyNode (fun _ => isAtLeastBinary_splices) fun lengths many => by rwa [← lengths]

section Equality

variable (laws : f.theory = .associativeCommutative)
include laws

theorem card_bag_pos {t : Term} (binary : t.isAtLeastBinary f = true) : 1 ≤ (bag f t).card := by
  induction t with
  | var v => rw [bag_of_not_rooted (by simp [head?]), Multiset.card_singleton]
  | const c => rw [bag_of_not_rooted (by simp [head?]), Multiset.card_singleton]
  | node g args ih =>
    by_cases rooted : g = f
    · subst rooted
      obtain ⟨many, each⟩ := isAtLeastBinary_node.mp binary
      have two := many rfl
      obtain ⟨arg, rest, rfl⟩ := List.exists_cons_of_length_pos (l := args) (by omega)
      have first := ih arg (List.mem_cons_self ..) (each arg (List.mem_cons_self ..))
      rw [bag_node laws, List.map_cons, List.sum_cons, Multiset.card_add]
      omega
    · rw [bag_of_not_rooted (by simpa [head?] using rooted), Multiset.card_singleton]

/-- A combination has at least two parts. -/
theorem two_le_card_bag {args : List Term} (binary : (node f args).isAtLeastBinary f = true) :
    2 ≤ (bag f (node f args)).card := by
  obtain ⟨many, each⟩ := isAtLeastBinary_node.mp binary
  obtain ⟨s, t, rest, rfl⟩ : ∃ s t rest, args = s :: t :: rest := by
    match args, many rfl with
    | s :: t :: rest, _ => exact ⟨s, t, rest, rfl⟩
  have first := card_bag_pos laws (each s (by simp))
  have second := card_bag_pos laws (each t (by simp))
  rw [bag_node laws, List.map_cons, List.map_cons, List.sum_cons, List.sum_cons, Multiset.card_add, Multiset.card_add]
  omega

/-- Terms with the same bag are equal. -/
theorem shape_eq_of_bag_eq {s t : Term} (left : s.isAtLeastBinary f = true) (right : t.isAtLeastBinary f = true)
    (same : bag f s = bag f t) : s.shape = t.shape := by
  have single {u : Term} (other : u.head? ≠ some f) : (bag f u).card = 1 := by
    rw [bag_of_not_rooted other, Multiset.card_singleton]
  by_cases first : s.head? = some f
  · obtain ⟨xs, rfl⟩ := exists_of_head? first
    by_cases second : t.head? = some f
    · obtain ⟨ys, rfl⟩ := exists_of_head? second
      refine shape_node_eq_iff.mpr ⟨rfl, .of_perm (isCommutative_of_laws laws) (Multiset.coe_eq_coe.mp ?_)⟩
      rwa [bag, bag, parts_of_absorbed (isAssociative_of_laws laws),
        parts_of_absorbed (isAssociative_of_laws laws)] at same
    · have many := two_le_card_bag laws left
      rw [same, single second] at many
      omega
  · by_cases second : t.head? = some f
    · obtain ⟨ys, rfl⟩ := exists_of_head? second
      have many := two_le_card_bag laws right
      rw [← same, single first] at many
      omega
    · rwa [bag_of_not_rooted first, bag_of_not_rooted second, Multiset.singleton_inj] at same

end Equality

section Parts

private theorem mem_arrange {g : FunctionSymbol} {s : Term} {args : List Term} : s ∈ arrange g args ↔ s ∈ args :=
  (aligned_arrange g args).perm.mem_iff

/-- A part of a term is its shape, or else an argument of its shape. -/
theorem mem_parts_or {g : FunctionSymbol} {s t : Term} (part : s ∈ parts g t) :
    s = t.shape ∨ ∃ inner, t.shape = node g inner ∧ s ∈ inner := by
  by_cases absorbed : g.theory.isAssociative = true ∧ t.head? = some g
  · obtain ⟨associative, root⟩ := absorbed
    obtain ⟨args, rfl⟩ := exists_of_head? root
    rw [parts_of_absorbed associative] at part
    exact .inr ⟨_, rfl, mem_arrange.mpr part⟩
  · rw [parts_of_not_absorbed (not_and.mp absorbed), List.mem_singleton] at part
    exact .inl part

theorem mem_arrange_shapes {g : FunctionSymbol} {s : Term} {args : List Term} :
    s ∈ arrange g (shapes g args) ↔ ∃ arg ∈ args, s ∈ parts g arg := by
  rw [mem_arrange, shapes_eq_flatMap, List.mem_flatMap]

private theorem isAtLeastBinary_shape (laws : f.theory = .associativeCommutative) {t : Term}
    (binary : t.isAtLeastBinary f = true) :
    t.shape.isAtLeastBinary f = true := by
  induction t with
  | var v => exact binary
  | const c => exact binary
  | node g args ih =>
    have inside := (isAtLeastBinary_node.mp binary).2
    rw [shape, isAtLeastBinary_node]
    constructor
    · intro same
      subst same
      have many := two_le_card_bag laws binary
      rw [bag, parts_of_absorbed (isAssociative_of_laws laws), Multiset.coe_card] at many
      rwa [(aligned_arrange g _).perm.length_eq]
    · intro s member
      obtain ⟨arg, present, part⟩ := mem_arrange_shapes.mp member
      have whole := ih arg present (inside arg present)
      rcases mem_parts_or part with rfl | ⟨inner, same, deeper⟩
      · exact whole
      · rw [same] at whole
        exact (isAtLeastBinary_node.mp whole).2 s deeper

theorem isAtLeastBinary_of_mem_bag (laws : f.theory = .associativeCommutative) {s t : Term}
    (binary : t.isAtLeastBinary f = true) (member : s ∈ bag f t) : s.isAtLeastBinary f = true := by
  have whole := isAtLeastBinary_shape laws binary
  rcases mem_parts_or (Multiset.mem_coe.mp member) with rfl | ⟨inner, same, deeper⟩
  · exact whole
  · rw [same] at whole
    exact (isAtLeastBinary_node.mp whole).2 s deeper

def isWellSorted (t : Term) : Bool :=
  t.everyNode fun g args => args.all (·.sort == g.domain)

theorem isWellSorted_node {g : FunctionSymbol} {args : List Term} :
    (node g args).isWellSorted = true ↔ (∀ arg ∈ args, arg.sort = g.domain) ∧
    ∀ arg ∈ args, arg.isWellSorted = true := by
  rw [isWellSorted, everyNode_node]
  simp only [List.all_eq_true, beq_iff_eq]
  rfl

private theorem isWellSorted_shape {t : Term} (sorted : t.isWellSorted = true) : t.shape.isWellSorted = true := by
  induction t with
  | var v => exact sorted
  | const c => exact sorted
  | node g args ih =>
    obtain ⟨sorts, inside⟩ := isWellSorted_node.mp sorted
    have each : ∀ s ∈ arrange g (shapes g args), s.sort = g.domain ∧ s.isWellSorted = true := by
      intro s member
      obtain ⟨arg, present, part⟩ := mem_arrange_shapes.mp member
      have whole := ih arg present (inside arg present)
      rcases mem_parts_or part with rfl | ⟨inner, same, deeper⟩
      · exact ⟨by rw [sort_shape, sorts arg present], whole⟩
      · rw [same] at whole
        exact ⟨(isWellSorted_node.mp whole).1 s deeper, (isWellSorted_node.mp whole).2 s deeper⟩
    rw [shape, isWellSorted_node]
    exact ⟨fun s member => (each s member).1, fun s member => (each s member).2⟩

theorem sort_of_mem_bag {s t : Term} (sorted : t.isWellSorted = true) (sort : t.sort = f.domain)
    (member : s ∈ bag f t) :
    s.sort = f.domain := by
  rcases mem_parts_or (Multiset.mem_coe.mp member) with rfl | ⟨inner, same, deeper⟩
  · rw [sort_shape, sort]
  · have whole := isWellSorted_shape sorted
    rw [same] at whole
    exact (isWellSorted_node.mp whole).1 s deeper

end Parts

/-- The combination of terms, which is the term itself if there is only one. -/
def combined (f : FunctionSymbol) : List Term → Term
  | [t] => t
  | ts => app f ts

theorem isAtLeastBinary_combined {ts : List Term} (some : ts ≠ []) (each : ∀ t ∈ ts, t.isAtLeastBinary f = true) :
    (combined f ts).isAtLeastBinary f = true := by
  match ts with
  | [] => exact absurd rfl some
  | [t] => exact each t (by simp)
  | s :: t :: rest => exact isAtLeastBinary_app (fun _ => by simp) each

theorem bag_combined (laws : f.theory = .associativeCommutative) (ts : List Term) :
    bag f (combined f ts) = (ts.map (bag f)).sum := by
  match ts with
  | [] => exact bag_app laws []
  | [t] => simp [combined]
  | s :: t :: rest => exact bag_app laws _

theorem bag_instantiate_combined (laws : f.theory = .associativeCommutative) (ts : List Term) (m : Variable → Term) :
    bag f ((combined f ts).instantiate m) = (ts.map fun t => bag f (t.instantiate m)).sum := by
  match ts with
  | [] => exact bag_instantiate_app laws [] m
  | [t] => simp [combined]
  | s :: t :: rest => exact bag_instantiate_app laws _ m

theorem sort_combined (laws : f.theory = .associativeCommutative) (sorts : f.range = f.domain) {ts : List Term}
    (each : ∀ t ∈ ts, t.sort = f.domain) : (combined f ts).sort = f.domain := by
  have whole (us : List Term) : (app f us).sort = f.domain := by
    rw [sort_app (by simp [laws]), sorts]
  match ts with
  | [] => exact whole []
  | [t] => exact each t (List.mem_singleton_self t)
  | s :: t :: rest => exact whole _

end Equational.Term
