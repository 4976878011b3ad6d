import Equational.Term.Equality
import Mathlib.Data.Multiset.Basic

/-! One representative for every class of equal terms. The shape of a term has its associative
applications flattened and its commutative argument lists in an order that depends only on
their members, so two terms are equal exactly when their shapes are the same term. -/

namespace Equational

namespace SymbolTheory

variable {theory : SymbolTheory}

theorem ne_of_isAssociative (associative : theory.isAssociative = true) : theory ≠ .free ∧ theory ≠ .idempotent := by
  cases theory <;> simp [isAssociative] at associative ⊢

theorem ne_of_isCommutative (commutative : theory.isCommutative = true) : theory ≠ .free ∧ theory ≠ .idempotent := by
  cases theory <;> simp [isCommutative] at commutative ⊢

end SymbolTheory

namespace Term

/-- Argument lists that a symbol does not tell apart. -/
def Aligned (f : FunctionSymbol) (xs ys : List Term) : Prop :=
  if f.theory.isCommutative then xs.Perm ys else xs = ys

namespace Aligned

variable {f : FunctionSymbol} {xs ys zs : List Term}

theorem refl (f : FunctionSymbol) (xs : List Term) : Aligned f xs xs := by
  rw [Aligned]
  split
  · exact List.Perm.refl xs
  · rfl

theorem of_eq (equal : xs = ys) : Aligned f xs ys :=
  equal ▸ refl f xs

theorem symm (aligned : Aligned f xs ys) : Aligned f ys xs := by
  rw [Aligned] at aligned ⊢
  split <;> simp_all [List.perm_comm]

theorem trans (first : Aligned f xs ys) (second : Aligned f ys zs) : Aligned f xs zs := by
  unfold Aligned at *
  split
  · simp_all only [↓reduceIte]
    exact first.trans second
  · simp_all

theorem append {us vs : List Term} (first : Aligned f xs ys) (second : Aligned f us vs) :
    Aligned f (xs ++ us) (ys ++ vs) := by
  unfold Aligned at *
  split
  · simp_all only [↓reduceIte]
    exact List.Perm.append first second
  · simp_all

theorem perm (aligned : Aligned f xs ys) : xs.Perm ys := by
  simp only [Aligned] at aligned
  split at aligned
  · exact aligned
  · exact List.Perm.of_eq aligned

theorem of_perm (commutative : f.theory.isCommutative = true) (same : xs.Perm ys) : Aligned f xs ys := by
  simpa [Aligned, commutative] using same

private theorem nil_left (aligned : Aligned f [] xs) : xs = [] :=
  List.nil_perm.mp aligned.perm

private theorem of_cons {x : Term} (aligned : Aligned f (x :: xs) (x :: ys)) : Aligned f xs ys := by
  unfold Aligned at *
  split
  · simp_all only [↓reduceIte, List.perm_cons]
  · simp_all

private theorem lift {change : List Term → List Term}
    (respects : ∀ {us vs}, us.Perm vs → (change us).Perm (change vs))
    (aligned : Aligned f xs ys) : Aligned f (change xs) (change ys) := by
  simp only [Aligned] at aligned
  split at aligned
  next commutative => exact of_perm commutative (respects aligned)
  next => exact of_eq (congrArg change aligned)

private theorem flatMap (aligned : Aligned f xs ys) (g : Term → List Term) :
    Aligned f (xs.flatMap g) (ys.flatMap g) :=
  aligned.lift fun same => List.Perm.flatMap_right g same

theorem map (aligned : Aligned f xs ys) (g : Term → Term) : Aligned f (xs.map g) (ys.map g) :=
  aligned.lift fun same => List.Perm.map g same

end Aligned

/-- The list that stands for all lists aligned with the given one. -/
noncomputable def arrange (f : FunctionSymbol) (xs : List Term) : List Term :=
  if f.theory.isCommutative then (xs : Multiset Term).toList else xs

theorem aligned_arrange (f : FunctionSymbol) (xs : List Term) : Aligned f (arrange f xs) xs := by
  rw [Aligned, arrange]
  split
  · exact Multiset.coe_eq_coe.mp (Multiset.coe_toList _)
  · rfl

private theorem arrange_eq_iff {f : FunctionSymbol} {xs ys : List Term} :
    arrange f xs = arrange f ys ↔ Aligned f xs ys := by
  constructor
  · intro same
    exact (aligned_arrange f xs).symm.trans (same ▸ aligned_arrange f ys)
  · intro aligned
    simp only [Aligned] at aligned
    simp only [arrange]
    split at aligned
    next commutative => rw [if_pos commutative, if_pos commutative, Multiset.coe_eq_coe.mpr aligned]
    next ordered => rw [if_neg ordered, if_neg ordered, aligned]

mutual

noncomputable def shape : Term → Term
  | var v => var v
  | const c => const c
  | node f args => node f (arrange f (shapes f args))

noncomputable def shapes (f : FunctionSymbol) : List Term → List Term
  | [] => []
  | node g inner :: args =>
    if f.theory.isAssociative && g == f then shapes f inner ++ shapes f args
    else shape (node g inner) :: shapes f args
  | arg :: args => shape arg :: shapes f args

end

noncomputable def parts (f : FunctionSymbol) (arg : Term) : List Term :=
  shapes f [arg]

theorem parts_of_not_absorbed {f : FunctionSymbol} {arg : Term}
    (kept : f.theory.isAssociative = true → arg.head? ≠ some f) : parts f arg = [arg.shape] := by
  cases arg with
  | var v => simp [parts, shapes]
  | const c => simp [parts, shapes]
  | node g inner =>
    have skip : (f.theory.isAssociative && g == f) = false := by
      cases associative : f.theory.isAssociative
      · rfl
      · simpa [head?] using kept associative
    simp [parts, shapes, skip]

theorem parts_of_absorbed {f : FunctionSymbol} (associative : f.theory.isAssociative = true) (inner : List Term) :
    parts f (node f inner) = shapes f inner := by
  simp [parts, shapes, associative]

theorem shapes_cons (f : FunctionSymbol) (arg : Term) (args : List Term) :
    shapes f (arg :: args) = parts f arg ++ shapes f args := by
  cases arg with
  | var v => simp [parts, shapes]
  | const c => simp [parts, shapes]
  | node g inner =>
    simp only [parts, shapes, List.append_nil]
    split <;> simp

theorem shapes_eq_flatMap (f : FunctionSymbol) (args : List Term) : shapes f args = args.flatMap (parts f) := by
  induction args with
  | nil => rfl
  | cons arg args ih => rw [shapes_cons, ih, List.flatMap_cons]

theorem Aligned.shapes {f : FunctionSymbol} {xs ys : List Term} (aligned : Aligned f xs ys) :
    Aligned f (shapes f xs) (shapes f ys) := by
  rw [shapes_eq_flatMap, shapes_eq_flatMap]
  exact aligned.flatMap _

theorem shapes_append (f : FunctionSymbol) (xs ys : List Term) :
    shapes f (xs ++ ys) = shapes f xs ++ shapes f ys := by
  simp only [shapes_eq_flatMap, List.flatMap_append]

/-- Where nothing is absorbed, the compared arguments are the arguments. -/
theorem shapes_of_not_absorbed {f : FunctionSymbol} {args : List Term}
    (kept : f.theory.isAssociative = true → ∀ arg ∈ args, arg.head? ≠ some f) : shapes f args = args.map shape := by
  rw [shapes_eq_flatMap]
  induction args with
  | nil => rfl
  | cons arg args ih =>
    rw [List.flatMap_cons, parts_of_not_absorbed fun associative => kept associative arg List.mem_cons_self,
      ih fun associative other member => kept associative other (List.mem_cons_of_mem arg member),
      List.singleton_append, List.map_cons]

theorem shapes_of_not_associative {f : FunctionSymbol} (plain : f.theory.isAssociative = false) (args : List Term) :
    shapes f args = args.map shape :=
  shapes_of_not_absorbed (by simp [plain])

theorem shape_node_eq_iff {f g : FunctionSymbol} {xs ys : List Term} :
    (node f xs).shape = (node g ys).shape ↔ f = g ∧ Aligned f (shapes f xs) (shapes f ys) := by
  simp only [shape, node.injEq]
  constructor
  · intro ⟨root, same⟩
    subst root
    exact ⟨rfl, arrange_eq_iff.mp same⟩
  · intro ⟨root, aligned⟩
    subst root
    exact ⟨rfl, arrange_eq_iff.mpr aligned⟩

theorem sort_shape (t : Term) : t.shape.sort = t.sort := by
  cases t <;> simp [shape, sort]

theorem head?_shape (t : Term) : t.shape.head? = t.head? := by
  cases t <;> simp [shape, head?]

theorem exists_of_head? {f : FunctionSymbol} {t : Term} (root : t.head? = some f) : ∃ args, t = node f args := by
  cases t <;> simp only [head?, Option.some.injEq, reduceCtorEq] at root
  subst root
  exact ⟨_, rfl⟩

/-- What is equal to an application is an application of the same symbol. -/
theorem exists_of_shape_eq {f : FunctionSymbol} {xs : List Term} {t : Term} (same : (node f xs).shape = t.shape) :
    ∃ ys, t = node f ys := by
  refine exists_of_head? ?_
  rw [← head?_shape t, ← same, head?_shape, head?]

theorem parts_congr {f : FunctionSymbol} {s t : Term} (same : s.shape = t.shape) :
    Aligned f (parts f s) (parts f t) := by
  have heads : s.head? = t.head? := by rw [← head?_shape, same, head?_shape]
  by_cases absorbed : f.theory.isAssociative = true ∧ s.head? = some f
  · obtain ⟨associative, root⟩ := absorbed
    obtain ⟨xs, rfl⟩ := exists_of_head? root
    obtain ⟨ys, rfl⟩ := exists_of_head? (heads.symm.trans root)
    rw [parts_of_absorbed associative, parts_of_absorbed associative]
    exact (shape_node_eq_iff.mp same).2
  · rw [not_and] at absorbed
    rw [parts_of_not_absorbed absorbed, parts_of_not_absorbed (heads ▸ absorbed), same]
    exact .refl f _

theorem shapes_congr {f : FunctionSymbol} {xs ys : List Term}
    (same : List.Forall₂ (fun x y => x.shape = y.shape) xs ys) :
    Aligned f (shapes f xs) (shapes f ys) := by
  induction same with
  | nil => exact .refl f _
  | cons head _ ih =>
    rw [shapes_cons, shapes_cons]
    exact (parts_congr head).append ih

private theorem take_eq_some {f : FunctionSymbol} {test : Term → Bool} {shape' : Term} {ys rest : List Term}
    (passes : ∀ y, test y = true ↔ shape' = y.shape) (taken : take f.theory.isCommutative test ys = some rest) :
    Aligned f (ys.map shape) (shape' :: rest.map shape) := by
  induction ys generalizing rest with
  | nil => simp [take] at taken
  | cons y ys ih =>
    simp only [take] at taken
    split at taken
    next found =>
      cases taken
      rw [List.map_cons, (passes y).mp found]
      exact .refl f _
    next other =>
      split at taken
      next commutative =>
        obtain ⟨later, inner, rfl⟩ := Option.map_eq_some_iff.mp taken
        refine .of_perm commutative ?_
        rw [List.map_cons, List.map_cons]
        exact ((ih inner).perm.cons _).trans (List.Perm.swap _ _ _)
      next => cases taken

private theorem exists_take {f : FunctionSymbol} {test : Term → Bool} {shape' : Term} {ys zs : List Term}
    (passes : ∀ y, test y = true ↔ shape' = y.shape) (aligned : Aligned f (ys.map shape) (shape' :: zs)) :
    ∃ rest, take f.theory.isCommutative test ys = some rest ∧ Aligned f (rest.map shape) zs := by
  induction ys generalizing zs with
  | nil => exact absurd aligned.perm.symm (List.cons_ne_nil _ _ ∘ List.perm_nil.mp)
  | cons y ys ih =>
    by_cases found : test y = true
    · refine ⟨ys, by simp [take, found], ?_⟩
      rw [List.map_cons, ← (passes y).mp found] at aligned
      exact aligned.of_cons
    · have different : shape' ≠ y.shape := fun same => found ((passes y).mpr same)
      cases commutative : f.theory.isCommutative with
      | false =>
        simp only [Aligned, commutative, Bool.false_eq_true, ↓reduceIte, List.map_cons, List.cons.injEq] at aligned
        exact absurd aligned.1.symm different
      | true =>
        rw [List.map_cons] at aligned
        have member : y.shape ∈ zs := by
          have := aligned.perm.mem_iff.mp (List.mem_cons_self ..)
          exact (List.mem_cons.mp this).resolve_left fun same => different same.symm
        obtain ⟨before, after, rfl⟩ := List.append_of_mem member
        have others : Aligned f (ys.map shape) (shape' :: (before ++ after)) := by
          refine .of_perm commutative ((List.perm_cons y.shape).mp (aligned.perm.trans ?_))
          exact (List.Perm.cons _ List.perm_middle).trans (List.Perm.swap _ _ _)
        obtain ⟨rest, taken, remaining⟩ := ih others
        refine ⟨y :: rest, by simp [take, found, ← commutative, taken], .of_perm commutative ?_⟩
        rw [List.map_cons]
        exact (remaining.perm.cons _).trans List.perm_middle.symm

/-- Consuming arguments takes away elements of their shapes, and succeeds whenever these are there. -/
structure Consumes (f : FunctionSymbol) (xs : List Term) : Prop where
  sound : ∀ {ys rest}, consume f xs ys = some rest → Aligned f (ys.map shape) (shapes f xs ++ rest.map shape)
  complete : ∀ {ys zs}, Aligned f (ys.map shape) (shapes f xs ++ zs) →
    ∃ rest, consume f xs ys = some rest ∧ Aligned f (rest.map shape) zs

private theorem Consumes.nil (f : FunctionSymbol) : Consumes f [] where
  sound consumed := by
    cases consumed
    exact .refl f _
  complete aligned := ⟨_, rfl, aligned⟩

private theorem Consumes.append {f : FunctionSymbol} {us vs ws : List Term} (first : Consumes f us)
    (second : Consumes f vs) (shapesBoth : shapes f ws = shapes f us ++ shapes f vs)
    (consumeBoth : ∀ ys, consume f ws ys = (consume f us ys).bind (consume f vs)) : Consumes f ws where
  sound {ys rest} consumed := by
    simp only [consumeBoth] at consumed
    obtain ⟨middle, left, right⟩ := Option.bind_eq_some_iff.mp consumed
    rw [shapesBoth, List.append_assoc]
    exact (first.sound left).trans ((Aligned.refl f _).append (second.sound right))
  complete {ys zs} aligned := by
    rw [shapesBoth, List.append_assoc] at aligned
    obtain ⟨middle, left, remaining⟩ := first.complete aligned
    obtain ⟨rest, right, final⟩ := second.complete remaining
    exact ⟨rest, by rw [consumeBoth, left]; exact right, final⟩

private theorem Consumes.single {f : FunctionSymbol} {x : Term} {xs : List Term} (rest : Consumes f xs)
    (passes : ∀ y, eqv x y = true ↔ x.shape = y.shape) (contributes : parts f x = [x.shape])
    (step : ∀ ys, consume f (x :: xs) ys = (take f.theory.isCommutative (eqv x) ys).bind (consume f xs)) :
    Consumes f (x :: xs) where
  sound {ys left} consumed := by
    simp only [step] at consumed
    obtain ⟨middle, taken, right⟩ := Option.bind_eq_some_iff.mp consumed
    rw [shapes_cons, contributes]
    exact (take_eq_some passes taken).trans ((Aligned.refl f [x.shape]).append (rest.sound right))
  complete {ys zs} aligned := by
    rw [shapes_cons, contributes] at aligned
    obtain ⟨middle, taken, remaining⟩ := exists_take passes aligned
    obtain ⟨left, right, final⟩ := rest.complete remaining
    exact ⟨left, by rw [step, taken]; exact right, final⟩

mutual

theorem map_shape_comparedArgument (f : FunctionSymbol) (arg : Term) :
    (comparedArgument f arg).map shape = parts f arg :=
  match arg with
  | var v => by simp [comparedArgument, parts, shapes]
  | const c => by simp [comparedArgument, parts, shapes]
  | node g inner => by
    have inside := map_shape_compared f inner
    simp only [comparedArgument, parts, shapes]
    split
    · simpa using inside
    · simp [shape]
termination_by structural arg

private theorem map_shape_compared (f : FunctionSymbol) (args : List Term) :
    (compared f args).map shape = shapes f args :=
  match args with
  | [] => rfl
  | arg :: args => by
    rw [compared, List.map_append, map_shape_comparedArgument f arg, map_shape_compared f args, shapes_cons]
termination_by structural args

end

mutual

private theorem eqv_iff_shape (s t : Term) : eqv s t = true ↔ s.shape = t.shape :=
  match s with
  | var v => by cases t <;> simp [eqv, shape]
  | const c => by cases t <;> simp [eqv, shape]
  | node f xs => by
    cases t with
    | var w => simp [eqv, shape]
    | const d => simp [eqv, shape]
    | node g ys =>
      have consumes := consume_shapes f xs
      rw [eqv, Bool.and_eq_true, beq_iff_eq, shape_node_eq_iff]
      refine and_congr_right ?_
      intro same
      subst same
      rw [Option.any_eq_true, ← map_shape_compared f ys]
      constructor
      · intro ⟨rest, consumed, empty⟩
        rw [List.isEmpty_iff.mp empty] at consumed
        simpa using (consumes.sound consumed).symm
      · intro aligned
        rw [← List.append_nil (shapes f xs)] at aligned
        obtain ⟨rest, consumed, left⟩ := consumes.complete aligned.symm
        have none : rest = [] := List.map_eq_nil_iff.mp left.symm.nil_left
        exact ⟨rest, consumed, by simp [none]⟩
termination_by structural s

theorem consume_shapes (f : FunctionSymbol) (xs : List Term) : Consumes f xs :=
  match xs with
  | [] => .nil f
  | var v :: xs =>
    (consume_shapes f xs).single (eqv_iff_shape (var v)) (parts_of_not_absorbed (by simp [head?]))
      fun ys => by simp only [consume]
  | const c :: xs =>
    (consume_shapes f xs).single (eqv_iff_shape (const c)) (parts_of_not_absorbed (by simp [head?]))
      fun ys => by simp only [consume]
  | node g inner :: xs => by
    have inside := consume_shapes f inner
    have whole := eqv_iff_shape (node g inner)
    have later := consume_shapes f xs
    by_cases absorbed : (f.theory.isAssociative && g == f) = true
    · exact inside.append later (by simp only [shapes, absorbed, ↓reduceIte])
        fun ys => by simp only [consume, absorbed, ↓reduceIte]
    · refine later.single whole (parts_of_not_absorbed ?_) fun ys => by
        simp only [consume, absorbed, Bool.false_eq_true, ↓reduceIte]
      intro associative root
      simp_all [head?]
termination_by structural xs

end

theorem beq_iff_shape {s t : Term} : (s == t) = true ↔ s.shape = t.shape :=
  eqv_iff_shape s t

theorem beq_eq_false_iff_shape {s t : Term} : (s == t) = false ↔ s.shape ≠ t.shape := by
  rw [Ne, ← beq_iff_shape, Bool.not_eq_true]

instance : EquivBEq Term where
  rfl := beq_iff_shape.mpr rfl
  symm same := beq_iff_shape.mpr (beq_iff_shape.mp same).symm
  trans first second := beq_iff_shape.mpr ((beq_iff_shape.mp first).trans (beq_iff_shape.mp second))

mutual

/-- A shape stands for itself. -/
theorem shape_shape (t : Term) : t.shape.shape = t.shape :=
  match t with
  | var v => rfl
  | const c => rfl
  | node f args => by
    have inside := shapes_shapes f args
    change (node f (arrange f (shapes f args))).shape = (node f args).shape
    refine shape_node_eq_iff.mpr ⟨rfl, ?_⟩
    exact (aligned_arrange f _).shapes.trans (.of_eq inside)
termination_by structural t

theorem shapes_shapes (f : FunctionSymbol) (args : List Term) : shapes f (shapes f args) = shapes f args :=
  match args with
  | [] => rfl
  | var v :: args => by
    rw [shapes_cons, shapes_append, shapes_shapes f args]
    simp [parts, shapes, shape]
  | const c :: args => by
    rw [shapes_cons, shapes_append, shapes_shapes f args]
    simp [parts, shapes, shape]
  | node g inner :: args => by
    have inside := shapes_shapes f inner
    have whole := shape_shape (node g inner)
    have later := shapes_shapes f args
    rw [shapes_cons, shapes_append, later]
    by_cases absorbed : f.theory.isAssociative = true ∧ g = f
    · obtain ⟨associative, rfl⟩ := absorbed
      rw [parts_of_absorbed associative, inside]
    · have kept : f.theory.isAssociative = true → (node g inner).head? ≠ some f := by
        intro associative root
        exact absorbed ⟨associative, by simpa [head?] using root⟩
      rw [parts_of_not_absorbed kept, ← parts]
      rw [← head?_shape] at kept
      rw [parts_of_not_absorbed kept, whole]
termination_by structural args

end

end Term

end Equational
