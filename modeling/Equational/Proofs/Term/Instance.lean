import Equational.Proofs.Term.Shape
import Equational.Substitution.Apply

/-! Instances of terms. A term is instantiated by giving every variable a term, and a substitution
does so on its domain. Equal terms under equal assignments have equal instances, and
instantiating twice is instantiating once. -/

namespace Equational.Term

private theorem shapes_spliced {f : FunctionSymbol} (associative : f.theory.isAssociative = true) (args : List Term) :
    shapes f (spliced f args) = shapes f args := by
  fun_induction spliced f args with
  | case1 => rfl
  | case2 g inner args same ih =>
    rw [beq_iff_eq] at same
    subst same
    rw [shapes_append, ih, shapes_cons, parts_of_absorbed associative]
  | case3 g inner args _ ih => rw [shapes_cons, ih, shapes_cons]
  | case4 arg args _ ih => rw [shapes_cons, ih, shapes_cons]

/-- Canonical shape is a matter of representation, except where an idempotent symbol collapses. -/
theorem shape_app {f : FunctionSymbol} (kept : f.theory ≠ .idempotent) (args : List Term) :
    (app f args).shape = (node f args).shape := by
  simp only [app]
  cases theory : f.theory with
  | free => rfl
  | commutative => rfl
  | idempotent => exact absurd theory kept
  | associative | associativeCommutative =>
    refine shape_node_eq_iff.mpr ⟨rfl, .of_eq (shapes_spliced ?_ args)⟩
    simp [theory, SymbolTheory.isAssociative]

theorem app_pair {f : FunctionSymbol} (idempotent : f.theory = .idempotent) (s t : Term) :
    app f [s, t] = if s == t then s else node f [s, t] := by
  simp [app, idempotent]

theorem app_of_length_ne {f : FunctionSymbol} (idempotent : f.theory = .idempotent) {args : List Term}
    (other : args.length ≠ 2) : app f args = node f args := by
  rcases args with _ | ⟨s, _ | ⟨t, _ | ⟨u, rest⟩⟩⟩
  · simp [app, idempotent]
  · simp [app, idempotent]
  · exact absurd rfl other
  · simp [app, idempotent]

/-- Applications of one symbol to equal arguments are equal. -/
theorem app_congr {f : FunctionSymbol} {xs ys : List Term}
    (same : List.Forall₂ (fun x y => x.shape = y.shape) xs ys) : (app f xs).shape = (app f ys).shape := by
  have nodes : (node f xs).shape = (node f ys).shape := shape_node_eq_iff.mpr ⟨rfl, shapes_congr same⟩
  by_cases idempotent : f.theory = .idempotent
  · by_cases pair : xs.length = 2
    · obtain ⟨s, t, rfl⟩ := List.length_eq_two.mp pair
      obtain ⟨s', t', rfl⟩ := List.length_eq_two.mp (same.length_eq ▸ pair)
      simp only [List.forall₂_cons, List.forall₂_nil_left_iff, and_true] at same
      have test : (s == t) = (s' == t') := by
        rw [Bool.eq_iff_iff, beq_iff_shape, beq_iff_shape, same.1, same.2]
      rw [app_pair idempotent, app_pair idempotent, test]
      split
      · exact same.1
      · exact nodes
    · rw [app_of_length_ne idempotent pair, app_of_length_ne idempotent (same.length_eq ▸ pair), nodes]
  · rw [shape_app idempotent, shape_app idempotent, nodes]

/-- A symbol that does not tell two argument lists apart makes equal applications of them. -/
theorem app_aligned {f : FunctionSymbol} {xs ys : List Term} (aligned : Aligned f xs ys) :
    (app f xs).shape = (app f ys).shape := by
  by_cases commutative : f.theory.isCommutative = true
  · have kept := (SymbolTheory.ne_of_isCommutative commutative).2
    rw [shape_app kept, shape_app kept]
    exact shape_node_eq_iff.mpr ⟨rfl, aligned.shapes⟩
  · rw [Aligned, if_neg commutative] at aligned
    rw [aligned]

theorem app_map_congr {f : FunctionSymbol} {args : List Term} {g h : Term → Term}
    (same : ∀ arg ∈ args, (g arg).shape = (h arg).shape) :
    (app f (args.map g)).shape = (app f (args.map h)).shape := by
  refine app_congr ?_
  rw [List.forall₂_map_left_iff, List.forall₂_map_right_iff, List.forall₂_same]
  exact same

mutual

/-- The term with every variable replaced, rebuilt from the leaves up. -/
def instantiate (m : Variable → Term) : Term → Term
  | var v => m v
  | const c => const c
  | node f args => app f (instantiateList m args)

def instantiateList (m : Variable → Term) : List Term → List Term
  | [] => []
  | arg :: args => instantiate m arg :: instantiateList m args

end

private theorem instantiateList_eq_map (m : Variable → Term) (args : List Term) :
    instantiateList m args = args.map (instantiate m) := by
  induction args with
  | nil => rfl
  | cons arg args ih => rw [instantiateList, ih, List.map_cons]

theorem instantiate_node (m : Variable → Term) (f : FunctionSymbol) (args : List Term) :
    (node f args).instantiate m = app f (args.map (instantiate m)) := by
  rw [instantiate, instantiateList_eq_map]

private theorem parts_instantiate_absorbed {f : FunctionSymbol} (associative : f.theory.isAssociative = true)
    (m : Variable → Term) (inner : List Term) :
    Aligned f (parts f ((node f inner).instantiate m)) (shapes f (inner.map (instantiate m))) := by
  have kept := (SymbolTheory.ne_of_isAssociative associative).2
  rw [instantiate_node]
  exact (parts_congr (shape_app kept _)).trans (.of_eq (parts_of_absorbed associative _))

mutual

private theorem shape_instantiate_shape (m : Variable → Term) (t : Term) :
    (t.shape.instantiate m).shape = (t.instantiate m).shape :=
  match t with
  | var v => rfl
  | const c => rfl
  | node f args => by
    have inside := shapes_instantiate_shapes m f args
    rw [shape, instantiate_node, instantiate_node]
    by_cases idempotent : f.theory = .idempotent
    · have plain : f.theory.isAssociative = false := by simp [idempotent, SymbolTheory.isAssociative]
      have ordered : f.theory.isCommutative = false := by simp [idempotent, SymbolTheory.isCommutative]
      rw [shapes_of_not_associative plain, shapes_of_not_associative plain, shapes_of_not_associative plain] at inside
      rw [shapes_of_not_associative plain]
      simp only [Aligned, arrange, ordered, Bool.false_eq_true, ↓reduceIte, List.map_map] at inside ⊢
      exact app_map_congr (List.map_inj_left.mp inside)
    · rw [shape_app idempotent, shape_app idempotent]
      refine shape_node_eq_iff.mpr ⟨rfl, Aligned.trans ?_ inside⟩
      exact ((aligned_arrange f _).map _).shapes
termination_by structural t

theorem shapes_instantiate_shapes (m : Variable → Term) (f : FunctionSymbol) (args : List Term) :
    Aligned f (shapes f ((shapes f args).map (instantiate m))) (shapes f (args.map (instantiate m))) :=
  match args with
  | [] => .refl f _
  | var v :: args => by
    have later := shapes_instantiate_shapes m f args
    rw [shapes_cons, List.map_append, shapes_append, List.map_cons, shapes_cons]
    refine Aligned.append ?_ later
    rw [parts_of_not_absorbed (by simp [head?])]
    exact .refl f _
  | const c :: args => by
    have later := shapes_instantiate_shapes m f args
    rw [shapes_cons, List.map_append, shapes_append, List.map_cons, shapes_cons]
    refine Aligned.append ?_ later
    rw [parts_of_not_absorbed (by simp [head?])]
    exact .refl f _
  | node g inner :: args => by
    have inside := shapes_instantiate_shapes m f inner
    have whole := shape_instantiate_shape m (node g inner)
    have later := shapes_instantiate_shapes m f args
    rw [shapes_cons, List.map_append, shapes_append, List.map_cons, shapes_cons]
    refine Aligned.append ?_ later
    by_cases absorbed : f.theory.isAssociative = true ∧ g = f
    · obtain ⟨associative, rfl⟩ := absorbed
      rw [parts_of_absorbed associative]
      exact inside.trans (parts_instantiate_absorbed associative m inner).symm
    · rw [parts_of_not_absorbed fun associative root => absorbed ⟨associative, by simpa [head?] using root⟩]
      exact parts_congr whole
termination_by structural args

end

/-- Equal terms have equal instances. -/
theorem instantiate_congr {s t : Term} (same : s.shape = t.shape) (m : Variable → Term) :
    (s.instantiate m).shape = (t.instantiate m).shape := by
  rw [← shape_instantiate_shape m s, same, shape_instantiate_shape m t]

/-- Equal assignments to the variables of a term give equal instances. -/
theorem instantiate_congr_left {m m' : Variable → Term} {t : Term}
    (same : ∀ v ∈ t.vars, (m v).shape = (m' v).shape) : (t.instantiate m).shape = (t.instantiate m').shape := by
  induction t with
  | var v => exact same v (by simp [vars])
  | const c => rfl
  | node f args ih =>
    rw [instantiate_node, instantiate_node]
    refine app_map_congr ?_
    intro arg member
    exact ih arg member fun v occurs => same v (mem_varsList.mpr ⟨arg, member, occurs⟩)

/-- Assignments that are the same on the variables of a term give the same instance. -/
theorem instantiate_congr_on {m m' : Variable → Term} {t : Term} (same : ∀ v ∈ t.vars, m v = m' v) :
    t.instantiate m = t.instantiate m' := by
  induction t with
  | var v => exact same v (by simp [vars])
  | const c => rfl
  | node f args ih =>
    rw [instantiate_node, instantiate_node]
    refine congrArg (app f) (List.map_inj_left.mpr fun arg member => ?_)
    exact ih arg member fun v occurs => same v (mem_varsList.mpr ⟨arg, member, occurs⟩)

private theorem shapes_map_spliced {f : FunctionSymbol} (associative : f.theory.isAssociative = true)
    (m : Variable → Term) (args : List Term) :
    Aligned f (shapes f ((spliced f args).map (instantiate m))) (shapes f (args.map (instantiate m))) := by
  fun_induction spliced f args with
  | case1 => exact .refl f _
  | case2 g inner args same ih =>
    rw [beq_iff_eq] at same
    subst same
    rw [List.map_append, shapes_append, List.map_cons, shapes_cons]
    exact (parts_instantiate_absorbed associative m inner).symm.append ih
  | case3 g inner args _ ih =>
    rw [List.map_cons, shapes_cons, List.map_cons, shapes_cons]
    exact Aligned.append (.refl _ _) ih
  | case4 arg args _ ih =>
    rw [List.map_cons, shapes_cons, List.map_cons, shapes_cons]
    exact Aligned.append (.refl _ _) ih

/-- An application may be built before or after its arguments are instantiated. -/
theorem instantiate_app (m : Variable → Term) (f : FunctionSymbol) (args : List Term) :
    ((app f args).instantiate m).shape = (app f (args.map (instantiate m))).shape := by
  cases theory : f.theory with
  | free | commutative => simp [app, theory, instantiate_node]
  | associative | associativeCommutative =>
    have associative : f.theory.isAssociative = true := by simp [theory, SymbolTheory.isAssociative]
    have built : app f args = node f (spliced f args) := by simp [app, theory]
    have kept : f.theory ≠ .idempotent := by simp [theory]
    rw [built, instantiate_node, shape_app kept, shape_app kept]
    exact shape_node_eq_iff.mpr ⟨rfl, shapes_map_spliced associative m args⟩
  | idempotent =>
    by_cases pair : args.length = 2
    · obtain ⟨s, t, rfl⟩ := List.length_eq_two.mp pair
      rw [app_pair theory]
      split
      next same =>
        have instances := instantiate_congr (beq_iff_shape.mp same) m
        simp [app_pair theory, beq_iff_shape, instances]
      next => rw [instantiate_node]
    · rw [app_of_length_ne theory pair, instantiate_node]

/-- Two instantiations in a row are one. -/
theorem instantiate_instantiate (d m : Variable → Term) (t : Term) :
    ((t.instantiate d).instantiate m).shape = (t.instantiate fun v => (d v).instantiate m).shape := by
  induction t with
  | var v => rfl
  | const c => rfl
  | node f args ih =>
    rw [instantiate_node, instantiate_node, instantiate_app, List.map_map]
    exact app_map_congr ih

end Equational.Term
