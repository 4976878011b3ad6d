import Equational.Proofs.AC.Outcome
import Equational.Proofs.Failure
import Equational.Proofs.Term.Bag
import Equational.Proofs.Unification.MostGeneral
import Mathlib.Algebra.Order.BigOperators.Group.List
import Mathlib.Algebra.Order.Ring.Nat

/-! What the checks on rooted equations reject has no solution. A combination weighs more than
any of its variables, whatever these stand for, and it equals no constant and no application of
another symbol. Only a term that is neither a variable nor ground is turned down for another
reason. -/

namespace Equational

namespace Term

variable {f : FunctionSymbol}

abbrev AppliesOnly (f : FunctionSymbol) (t : Term) : Prop :=
  t.Over fun g => g = f ∨ g.theory = .free

/-- The symbols and variables in the parts of a term, where applications of `f` weigh nothing. -/
noncomputable def weight (f : FunctionSymbol) (t : Term) : Nat :=
  ((bag f t).map size).sum

theorem weight_of_not_rooted {t : Term} (other : t.head? ≠ some f) : weight f t = t.shape.size := by
  rw [weight, bag_of_not_rooted other, Multiset.map_singleton, Multiset.sum_singleton]

theorem weight_congr {s t : Term} (same : s.shape = t.shape) : weight f s = weight f t := by
  rw [weight, bag_congr same, weight]

private theorem weight_app (laws : f.theory = .associativeCommutative) (args : List Term) :
    weight f (app f args) = (args.map (weight f)).sum := by
  have additive := map_list_sum (Multiset.sumAddMonoidHom.comp (Multiset.mapAddMonoidHom size)) (args.map (bag f))
  rw [List.map_map] at additive
  rw [weight, bag_app laws]
  exact additive

theorem sizeList_eq_sum (args : List Term) : sizeList args = (args.map size).sum := by
  induction args with
  | nil => rfl
  | cons arg args ih => rw [sizeList, ih, List.map_cons, List.sum_cons]

/-- A combination is one symbol larger than its parts together. -/
theorem size_shape_of_rooted (laws : f.theory = .associativeCommutative) {t : Term} (root : t.head? = some f) :
    t.shape.size = 1 + weight f t := by
  obtain ⟨args, rfl⟩ := exists_of_head? root
  rw [shape, size, sizeList_eq_sum, ((aligned_arrange _ _).perm.map size).sum_eq, weight, bag,
    parts_of_absorbed (isAssociative_of_laws laws), Multiset.map_coe, Multiset.sum_coe]

theorem weight_le_size (laws : f.theory = .associativeCommutative) (t : Term) : weight f t ≤ t.shape.size := by
  by_cases root : t.head? = some f
  · have larger := size_shape_of_rooted laws root
    omega
  · have plain := weight_of_not_rooted root
    omega

private theorem weight_pos (laws : f.theory = .associativeCommutative) {t : Term}
    (binary : t.isAtLeastBinary f = true) :
    1 ≤ weight f t := by
  obtain ⟨s, member⟩ := Multiset.card_pos_iff_exists_mem.mp (card_bag_pos laws binary)
  obtain ⟨rest, split⟩ := Multiset.exists_cons_of_mem member
  have positive := size_pos s
  simp only [weight, split, Multiset.map_cons, Multiset.sum_cons]
  omega

/-- No instance weighs less than what one of its variables stands for. -/
theorem weight_le_of_mem_vars (laws : f.theory = .associativeCommutative) {t : Term}
    (spelled : t.AppliesOnly f) {v : Variable} (occurs : v ∈ t.vars) (m : Variable → Term) :
    weight f (m v) ≤ weight f (t.instantiate m) := by
  induction t with
  | var w =>
    obtain rfl : v = w := by simpa [vars] using occurs
    exact Nat.le_refl _
  | const c => simp [vars] at occurs
  | node g args ih =>
    obtain ⟨root, each⟩ := over_node.mp spelled
    obtain ⟨arg, member, inside⟩ := mem_varsList.mp occurs
    have smaller := ih arg member (each arg member) inside
    rw [instantiate_node]
    by_cases same : g = f
    · subst same
      rw [weight_app laws, List.map_map]
      exact Nat.le_trans smaller (List.single_le_sum (by simp) _ (List.mem_map_of_mem member))
    · have free := root.resolve_left same
      have plain : (node g (args.map (instantiate m))).head? ≠ some f := by simpa [head?] using same
      rw [app_of_free free, weight_of_not_rooted plain, shape_node_of_free free, size, sizeList_eq_sum,
        List.map_map, List.map_map]
      have part : (arg.instantiate m).shape.size ≤ (args.map ((size ∘ shape) ∘ instantiate m)).sum :=
        List.single_le_sum (by simp) _ (List.mem_map_of_mem member)
      have bounded := weight_le_size laws (arg.instantiate m)
      omega

/-- A combination of two or more weighs more than each of its arguments. -/
theorem weight_lt_app (laws : f.theory = .associativeCommutative) {args : List Term} (many : 2 ≤ args.length)
    (binary : ∀ arg ∈ args, arg.isAtLeastBinary f = true) : ∀ arg ∈ args, weight f arg < weight f (app f args) := by
  intro arg member
  obtain ⟨before, after, rfl⟩ := List.append_of_mem member
  have least (l : List Term) (sub : ∀ other ∈ l, other ∈ before ++ arg :: after) :
      l.length ≤ (l.map (weight f)).sum := by
    have bound := List.length_le_sum_of_one_le (l.map (weight f)) (by
      intro k among
      obtain ⟨other, present, rfl⟩ := List.mem_map.mp among
      exact weight_pos laws (binary other (sub other present)))
    rwa [List.length_map] at bound
  have first := least before fun other present => List.mem_append_left _ present
  have last := least after fun other present => List.mem_append_right _ (List.mem_cons_of_mem arg present)
  rw [weight_app laws, List.map_append, List.map_cons, List.sum_append, List.sum_cons]
  rw [List.length_append, List.length_cons] at many
  omega

private theorem weight_lt_of_mem_vars (laws : f.theory = .associativeCommutative) {args : List Term}
    (spelled : (node f args).AppliesOnly f) (binary : (node f args).isAtLeastBinary f = true)
    {v : Variable} (occurs : v ∈ (node f args).vars) {m : Variable → Term}
    (values : ∀ v, (m v).isAtLeastBinary f = true) :
    weight f (m v) < weight f ((node f args).instantiate m) := by
  obtain ⟨arg, member, inside⟩ := mem_varsList.mp occurs
  obtain ⟨many, each⟩ := isAtLeastBinary_node.mp binary
  have smaller := weight_le_of_mem_vars laws ((over_node.mp spelled).2 arg member) inside m
  rw [instantiate_node]
  refine Nat.lt_of_le_of_lt smaller (weight_lt_app laws (by simpa using many) ?_ _ (List.mem_map_of_mem member))
  intro other listed
  obtain ⟨origin, present, rfl⟩ := List.mem_map.mp listed
  exact (hereditary_isAtLeastBinary f).instantiate (each origin present) values

end Term

namespace AC

variable {f : FunctionSymbol} {equations : List Equation}

/-- The checks fail at the sides of an equation, or else at a member of a side. -/
theorem exists_of_check_error {failure : Failure} (failed : check f equations = .error failure) :
    (∃ e ∈ equations, checkSides f e = .error failure) ∨
      ∃ e ∈ equations, ∃ a ∈ membersOf f e, checkAtom f a = .error failure := by
  rcases exists_of_bind_eq_error failed with sides | ⟨_, _, atoms⟩
  · exact .inl (exists_of_forM_error sides)
  · obtain ⟨a, member, found⟩ := exists_of_forM_error atoms
    obtain ⟨e, inside, occurs⟩ := List.mem_flatMap.mp member
    exact .inr ⟨e, inside, a, occurs, found⟩

/-- An atom of the domain sort passes when it is a variable or ground. -/
theorem checkAtom_spec (f : FunctionSymbol) (a : Term) :
    match checkAtom f a with
    | .ok _ => a.sort = f.domain ∧ (a.isVariable = true ∨ a.isGround = true)
    | .error failure => a.sort = f.domain → failure = .unsupported .openAlien := by
  simp only [checkAtom]
  by_cases sort : a.sort = f.domain
  · rw [if_neg (by simp [sort])]
    cases simple : a.isVariable || a.isGround with
    | true => exact ⟨sort, by simpa using simple⟩
    | false => exact fun _ => rfl
  · rw [if_pos (by simpa using sort)]
    exact fun same => absurd same sort

theorem of_check_ok (passed : check f equations = .ok ()) :
    ∀ e ∈ equations, ∀ a ∈ membersOf f e, a.sort = f.domain ∧ (a.isVariable = true ∨ a.isGround = true) := by
  obtain ⟨_, _, atoms⟩ := exists_of_bind_eq_ok passed
  intro e member a occurs
  have atom := of_forM_ok atoms a (List.mem_flatMap.mpr ⟨e, member, occurs⟩)
  have spec := checkAtom_spec f a
  rwa [atom] at spec

/-- A side over the combiner and free symbols, which is a combination if its root has the number
of the combiner. -/
structure Plain (f : FunctionSymbol) (side : Term) : Prop where
  root : side.isRootedAt f.id = true → side.head? = some f
  spelled : side.AppliesOnly f
  binary : side.isAtLeastBinary f = true

private theorem compatible_of_shape_eq (laws : f.theory = .associativeCommutative) {other rooted : Term}
    {m : Variable → Term} (root : rooted.head? = some f) (plainOther : Plain f other) (plainRooted : Plain f rooted)
    (values : ∀ v, (m v).isAtLeastBinary f = true)
    (same : (other.instantiate m).shape = (rooted.instantiate m).shape) :
    (∃ v, other = .var v ∧ rooted.contains v = false) ∨ other.head? = some f := by
  obtain ⟨args, rfl⟩ := Term.exists_of_head? root
  have head : (other.instantiate m).head? = some f := by
    rw [← Term.head?_shape, same, Term.head?_shape, Term.instantiate_node]
    simp [Term.app, laws, Term.head?]
  cases other with
  | var v =>
    refine .inl ⟨v, rfl, ?_⟩
    by_contra occurs
    rw [Bool.not_eq_false, Term.contains, List.contains_iff_mem] at occurs
    have heavier := Term.weight_lt_of_mem_vars laws plainRooted.spelled plainRooted.binary occurs values
    have equal : Term.weight f (m v) = _ := Term.weight_congr same
    omega
  | const c => cases head
  | node g inner =>
    rcases (Term.over_node.mp plainOther.spelled).1 with rfl | free
    · exact .inr rfl
    · rw [Term.instantiate_node, Term.app_of_free free] at head
      exact .inr head

/-- Sides with a common instance pass, if one of them is a combination. -/
theorem checkSides_of_holds (laws : f.theory = .associativeCommutative) {e : Equation} {m : Variable → Term}
    (left : Plain f e.lhs) (right : Plain f e.rhs) (values : ∀ v, (m v).isAtLeastBinary f = true)
    (rooted : isRooted f e = true) (holds : e.Holds m) : checkSides f e = .ok () := by
  simp only [checkSides]
  cases first : e.lhs.isRootedAt f.id with
  | true =>
    have root := left.root first
    rcases compatible_of_shape_eq laws root right left values (Eq.symm holds) with ⟨v, same, absent⟩ | head
    · simp [same, absent]
    · obtain ⟨args, other⟩ := Term.exists_of_head? head
      simp [other]
  | false =>
    have root : e.rhs.head? = some f := by
      rw [isRooted, first, Bool.false_or] at rooted
      exact right.root rooted
    rcases compatible_of_shape_eq laws root left right values holds with ⟨v, same, absent⟩ | head
    · simp [same, absent]
    · obtain ⟨args, other⟩ := Term.exists_of_head? head
      simp [other]

end AC

end Equational
