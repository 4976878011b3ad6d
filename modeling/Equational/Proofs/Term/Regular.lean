import Equational.Proofs.Term.Bag

/-! Regular terms: of one sort throughout, over one combiner and free symbols, with two or more
arguments under the combiner. Building, instantiating and bringing into shape keep terms regular,
and so are the parts of a regular term. -/

namespace Equational.Term

/-- Of the sort of the combiner throughout, with free symbols beside it, and no combination of
fewer than two. -/
def isRegular (f : FunctionSymbol) (t : Term) : Bool :=
  t.sort == f.range && t.everyNode fun g args =>
    (g == f || g.theory == .free) && g.range == f.range && args.all (·.sort == f.range) && (g != f || 2 ≤ args.length)

variable {f g : FunctionSymbol} {t : Term} {args : List Term}

theorem isRegular_var {v : Variable} : (var v).isRegular f = true ↔ v.sort = f.range := by
  simp [isRegular, sort]

theorem isRegular_node : (node g args).isRegular f = true ↔
    (g = f ∨ g.theory = .free) ∧ g.range = f.range ∧ (g = f → 2 ≤ args.length) ∧
    ∀ arg ∈ args, arg.isRegular f = true := by
  simp only [isRegular, Bool.and_eq_true, everyNode_node, sort, beq_iff_eq, Bool.or_eq_true,
    List.all_eq_true, bne_iff_ne, decide_eq_true_eq, Classical.or_iff_not_imp_left (a := g ≠ f), not_not]
  constructor
  · rintro ⟨range, ⟨⟨⟨symbol, _⟩, sorts⟩, many⟩, each⟩
    exact ⟨symbol, range, many, fun arg member => ⟨sorts arg member, each arg member⟩⟩
  · rintro ⟨symbol, range, many, each⟩
    exact ⟨range, ⟨⟨⟨symbol, range⟩, fun arg member => (each arg member).1⟩, many⟩,
      fun arg member => (each arg member).2⟩

def isSimple : Term → Bool
  | .node _ _ => false
  | _ => true

theorem sort_of_isRegular (regular : t.isRegular f = true) : t.sort = f.range := by
  simp only [isRegular, Bool.and_eq_true, beq_iff_eq] at regular
  exact regular.1

theorem isAtLeastBinary_of_isRegular (regular : t.isRegular f = true) : t.isAtLeastBinary f = true := by
  induction t with
  | var v => exact everyNode_var v
  | const c => exact everyNode_const c
  | node g args ih =>
    obtain ⟨_, _, many, each⟩ := isRegular_node.mp regular
    exact isAtLeastBinary_node.mpr ⟨many, fun arg member => ih arg member (each arg member)⟩

theorem sort_of_mem_vars (regular : t.isRegular f = true) {v : Variable} (occurs : v ∈ t.vars) :
    v.sort = f.range := by
  induction t with
  | var w =>
    obtain rfl : v = w := by simpa [vars] using occurs
    exact isRegular_var.mp regular
  | const c => simp [vars] at occurs
  | node g args ih =>
    obtain ⟨arg, member, inside⟩ := mem_varsList.mp occurs
    exact ih arg member ((isRegular_node.mp regular).2.2.2 arg member) inside

section Laws

variable (laws : f.theory = .associativeCommutative)
include laws

theorem ne_idempotent_of_regular (symbol : g = f ∨ g.theory = .free) : g.theory ≠ .idempotent := by
  rcases symbol with rfl | free
  · simp [laws]
  · simp [free]

theorem isRegular_app (symbol : g = f ∨ g.theory = .free) (range : g.range = f.range) (many : g = f → 2 ≤ args.length)
    (each : ∀ arg ∈ args, arg.isRegular f = true) : (app g args).isRegular f = true := by
  rcases symbol with rfl | free
  · have built : app g args = node g (spliced g args) := by simp [app, laws]
    rw [built, isRegular_node]
    refine ⟨.inl rfl, rfl, fun _ => ?_, ?_⟩
    · have kept := length_le_length_spliced fun arg member => isAtLeastBinary_of_isRegular (each arg member)
      have two := many rfl
      omega
    · intro arg member
      rcases mem_spliced member with ⟨old, _⟩ | ⟨inner, found, inside⟩
      · exact each arg old
      · exact (isRegular_node.mp (each _ found)).2.2.2 arg inside
  · rw [app_of_free free]
    exact isRegular_node.mpr ⟨.inr free, range, many, each⟩

theorem isRegular_instantiate {m : Variable → Term} (regular : t.isRegular f = true)
    (each : ∀ v ∈ t.vars, (m v).isRegular f = true) : (t.instantiate m).isRegular f = true := by
  induction t with
  | var v => exact each v (by simp [vars])
  | const c => exact regular
  | node g args ih =>
    obtain ⟨symbol, range, many, inside⟩ := isRegular_node.mp regular
    rw [instantiate_node]
    refine isRegular_app laws symbol range (by simpa using many) ?_
    intro arg member
    obtain ⟨origin, present, rfl⟩ := List.mem_map.mp member
    exact ih origin present (inside origin present) fun v occurs =>
      each v (mem_varsList.mpr ⟨origin, present, occurs⟩)

theorem isRegular_shape (regular : t.isRegular f = true) : t.shape.isRegular f = true := by
  induction t with
  | var v => exact regular
  | const c => exact regular
  | node g args ih =>
    obtain ⟨symbol, range, many, inside⟩ := isRegular_node.mp regular
    rw [shape, isRegular_node]
    refine ⟨symbol, range, fun same => ?_, fun s member => ?_⟩
    · subst same
      have parts := two_le_card_bag laws (isAtLeastBinary_of_isRegular regular)
      rw [bag, parts_of_absorbed (isAssociative_of_laws laws), Multiset.coe_card] at parts
      rwa [(aligned_arrange g _).perm.length_eq]
    · obtain ⟨arg, present, part⟩ := mem_arrange_shapes.mp member
      have whole := ih arg present (inside arg present)
      rcases mem_parts_or part with rfl | ⟨inner, same, deeper⟩
      · exact whole
      · rw [same] at whole
        exact (isRegular_node.mp whole).2.2.2 s deeper

theorem isRegular_of_mem_bag {s : Term} (regular : t.isRegular f = true) (member : s ∈ bag f t) :
    s.isRegular f = true := by
  have whole := isRegular_shape laws regular
  rcases mem_parts_or (Multiset.mem_coe.mp member) with rfl | ⟨inner, same, deeper⟩
  · exact whole
  · rw [same] at whole
    exact (isRegular_node.mp whole).2.2.2 s deeper

end Laws

end Equational.Term
