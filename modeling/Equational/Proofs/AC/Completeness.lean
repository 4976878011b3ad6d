import Equational.Proofs.AC.Generality

/-! Completeness of unification modulo one associative-commutative symbol. Equations without the
symbol at a root are free, so their unifier loses nothing. The others, under this unifier, pass
their checks whenever they have a solution, and then every solution is an instance of a
combination that is found. -/

namespace Equational.AC

/-- The equations are over one associative-commutative symbol on one sort and over free symbols,
and their sides are canonical and well-sorted, with two or more arguments under the symbol. -/
structure Admissible (f : FunctionSymbol) (equations : List Equation) : Prop where
  laws : f.theory = .associativeCommutative
  sorts : f.domain = f.range
  symbols : ∀ g ∈ equations.flatMap Equation.symbols, g = f ∨ g.theory = .free
  canonical : EverySide (fun t => t.isCanonical = true) equations
  sorted : EverySide (fun t => t.isWellSorted = true) equations
  binary : EverySide (fun t => t.isAtLeastBinary f = true) equations

instance {f : FunctionSymbol} {equations : List Equation} : Decidable (Admissible f equations) :=
  decidable_of_iff (f.theory = .associativeCommutative ∧ f.domain = f.range ∧
      (∀ g ∈ equations.flatMap Equation.symbols, g = f ∨ g.theory = .free) ∧
      EverySide (fun t => t.isCanonical = true) equations ∧ EverySide (fun t => t.isWellSorted = true) equations ∧
      EverySide (fun t => t.isAtLeastBinary f = true) equations)
    ⟨fun ⟨laws, sorts, symbols, canonical, sorted, binary⟩ => ⟨laws, sorts, symbols, canonical, sorted, binary⟩,
     fun ⟨laws, sorts, symbols, canonical, sorted, binary⟩ => ⟨laws, sorts, symbols, canonical, sorted, binary⟩⟩

/-- The combiner can be told by its number from the other symbols. -/
structure Distinguished (f : FunctionSymbol) (equations : List Equation) : Prop extends Admissible f equations where
  alone : ∀ g ∈ equations.flatMap Equation.symbols, g.id = f.id → g = f

section Symbols

variable {f : FunctionSymbol} {t : Term}

private theorem mentionsList_iff {id : FunctionId} {args : List Term} :
    Term.mentionsList id args = true ↔ ∃ arg ∈ args, arg.mentions id = true := by
  induction args with
  | nil => simp [Term.mentionsList]
  | cons arg args ih => simp [Term.mentionsList, ih]

private theorem mentions_of_mem_symbols (occurs : f ∈ t.symbols) : t.mentions f.id = true := by
  induction t with
  | var v => simp [Term.symbols] at occurs
  | const c => simp [Term.symbols] at occurs
  | node g args ih =>
    rw [Term.mentions, Bool.or_eq_true, mentionsList_iff]
    rcases Term.mem_symbols_node.mp occurs with rfl | ⟨arg, member, inside⟩
    · exact .inl (beq_self_eq_true _)
    · exact .inr ⟨arg, member, ih arg member inside⟩

private theorem isAtLeastBinary_of_isFree (laws : f.theory = .associativeCommutative) (free : t.IsFree) :
    t.isAtLeastBinary f = true := by
  induction t with
  | var v => exact (Term.hereditary_isAtLeastBinary f).var v
  | const c => exact Term.everyNode_const c
  | node g args ih =>
    obtain ⟨root, each⟩ := Term.over_node.mp free
    refine Term.isAtLeastBinary_node.mpr ⟨fun same => ?_, fun arg member => ih arg member (each arg member)⟩
    rw [same, laws] at root
    cases root

private theorem head?_of_isFree (laws : f.theory = .associativeCommutative) (free : t.IsFree) : t.head? ≠ some f := by
  intro root
  have theory := Unifier.head?_eq_some_of_over free root
  rw [laws] at theory
  cases theory

private theorem head?_instantiate (laws : f.theory = .associativeCommutative) (spelled : t.AppliesOnly f)
    {m : Variable → Term} (values : ∀ v, (m v).IsFree) : (t.instantiate m).head? = some f ↔ t.head? = some f := by
  cases t with
  | var v => exact iff_of_false (head?_of_isFree laws (values v)) (by simp [Term.head?])
  | const c => rfl
  | node g args =>
    rw [Term.instantiate_node]
    rcases (Term.over_node.mp spelled).1 with rfl | free
    · simp [Term.app, laws, Term.head?]
    · rw [Term.app_of_free free, Term.head?, Term.head?]

private theorem ne_idempotent_of_over (laws : f.theory = .associativeCommutative) (spelled : t.AppliesOnly f) :
    ∀ g ∈ t.symbols, g.theory ≠ .idempotent := by
  intro g occurs idempotent
  rcases spelled g occurs with rfl | free
  · rw [laws] at idempotent
    cases idempotent
  · rw [free] at idempotent
    cases idempotent

private theorem sort_eq_of_shape_eq {s : Term} {m : Variable → Term} (laws : f.theory = .associativeCommutative)
    (left : s.AppliesOnly f) (right : t.AppliesOnly f)
    (sorted : ∀ v, (m v).sort = v.sort) (same : (s.instantiate m).shape = (t.instantiate m).shape) :
    s.sort = t.sort := by
  rw [← Term.sort_instantiate sorted (ne_idempotent_of_over laws left), ← Term.sort_shape, same, Term.sort_shape,
    Term.sort_instantiate sorted (ne_idempotent_of_over laws right)]

private theorem spliced_eq_self {args : List Term} (plain : ∀ arg ∈ args, arg.head? ≠ some f) :
    Term.spliced f args = args := by
  rw [Term.spliced_eq_flatMap]
  induction args with
  | nil => rfl
  | cons arg args ih =>
    obtain ⟨first, rest⟩ := List.forall_mem_cons.mp plain
    rw [List.flatMap_cons, if_neg first, ih rest, List.singleton_append]

end Symbols

section Admissible

variable {f : FunctionSymbol} {equations : List Equation} (admissible : Admissible f equations)
include admissible

private theorem Admissible.spelled : EverySide (Term.AppliesOnly f) equations :=
  everySide_over_symbols admissible.symbols

private theorem Admissible.isFree_of_combiner? (none : combiner? equations = .ok none) :
    EverySide Term.IsFree equations := by
  have empty := combiner?_spec equations
  rw [none] at empty
  have free {e : Equation} (member : e ∈ equations) {t : Term} (side : t = e.lhs ∨ t = e.rhs)
      (spelled : t.AppliesOnly f) : t.IsFree := by
    intro g occurs
    refine (spelled g occurs).resolve_left ?_
    intro same
    have combines : g ∈ combiners t := by
      rw [mem_combiners, same, admissible.laws]
      exact ⟨same ▸ occurs, rfl, rfl⟩
    have sides := List.append_eq_nil_iff.mp (empty e member)
    rcases side with rfl | rfl
    · rw [sides.1] at combines
      cases combines
    · rw [sides.2] at combines
      cases combines
  intro e member
  exact ⟨free member (.inl rfl) (admissible.spelled e member).1,
    free member (.inr rfl) (admissible.spelled e member).2⟩

theorem Admissible.eq_of_combiner? {g : FunctionSymbol} (found : combiner? equations = .ok (some g)) : g = f := by
  obtain ⟨e, member, occurs⟩ := mem_of_combiner? found
  have single {t : Term} (spelled : t.AppliesOnly f) (combines : g ∈ combiners t) : g = f := by
    obtain ⟨applied, associative, _⟩ := mem_combiners.mp combines
    refine (spelled g applied).resolve_right ?_
    intro free
    rw [free] at associative
    cases associative
  rcases List.mem_append.mp occurs with left | right
  · exact single (admissible.spelled e member).1 left
  · exact single (admissible.spelled e member).2 right

private theorem Admissible.isFree_unrooted (apart : (unrooted f equations).any (occursIn f) = false) :
    EverySide Term.IsFree (unrooted f equations) := by
  intro e member
  have spelled := admissible.spelled e (List.mem_of_mem_filter member)
  have absent : occursIn f e = false := by
    rw [List.any_eq_false] at apart
    simpa using apart e member
  rw [occursIn, Bool.or_eq_false_iff] at absent
  have free {t : Term} (spelled : t.AppliesOnly f) (absent : t.mentions f.id = false) : t.IsFree := by
    intro g occurs
    refine (spelled g occurs).resolve_left ?_
    intro same
    rw [same] at occurs
    rw [mentions_of_mem_symbols occurs] at absent
    cases absent
  exact ⟨free spelled.1 absent.1, free spelled.2 absent.2⟩

end Admissible

section Distinguished

variable {f : FunctionSymbol} {equations : List Equation} (distinguished : Distinguished f equations)
include distinguished

private theorem Distinguished.numbered : EverySide (Term.Over fun g => g.id = f.id → g = f) equations :=
  everySide_over_symbols distinguished.alone

theorem Distinguished.filter (test : Equation → Bool) : Distinguished f (equations.filter test) := by
  have fewer {g : FunctionSymbol} (occurs : g ∈ (equations.filter test).flatMap Equation.symbols) :
      g ∈ equations.flatMap Equation.symbols := by
    obtain ⟨e, member, inside⟩ := List.mem_flatMap.mp occurs
    exact List.mem_flatMap.mpr ⟨e, List.mem_of_mem_filter member, inside⟩
  exact {
    laws := distinguished.laws
    sorts := distinguished.sorts
    symbols := fun g occurs => distinguished.symbols g (fewer occurs)
    canonical := everySide_filter distinguished.canonical test
    sorted := everySide_filter distinguished.sorted test
    binary := everySide_filter distinguished.binary test
    alone := fun g occurs => distinguished.alone g (fewer occurs) }

end Distinguished

private theorem head?_of_isRootedAt {f : FunctionSymbol} {t : Term} (numbered : t.Over fun g => g.id = f.id → g = f)
    (rooted : t.isRootedAt f.id = true) : t.head? = some f := by
  cases t with
  | var v | const c => cases rooted
  | node g args =>
    have same : g.id = f.id := by simpa [Term.isRootedAt] using rooted
    rw [Term.head?, (Term.over_node.mp numbered).1 same]

/-- An assignment that keeps sorts, stands for no combination of fewer than two, and makes the
equations hold. -/
structure Valuation (f : FunctionSymbol) (equations : List Equation) (m : Variable → Term) : Prop where
  sorted : ∀ v, (m v).sort = v.sort
  binary : ∀ v, (m v).isAtLeastBinary f = true
  holds : ∀ e ∈ equations, e.Holds m

section Based

variable {f : FunctionSymbol} {equations : List Equation} {base : Substitution} {m : Variable → Term}
  (distinguished : Distinguished f equations) (based : Based equations f base)
include distinguished based

private theorem Based.isFree_range : ∀ t ∈ base.range, t.IsFree :=
  range_of_unifyAll (Term.hereditary_over _) (distinguished.isFree_unrooted based.apart) based.solved

private theorem Based.isFree_image (v : Variable) : (base.image v).IsFree :=
  Substitution.image_hereditary (Term.hereditary_over _) (based.isFree_range distinguished) v

private theorem Based.sortPreserving : base.SortPreserving :=
  sortPreserving_of_unifyAll (distinguished.isFree_unrooted based.apart) based.solved

private theorem Based.holds (valuation : Valuation f equations m) : base.Holds m := by
  obtain ⟨σ, found, holds⟩ := unifyAll_of_holds (distinguished.isFree_unrooted based.apart) valuation.sorted
    fun e member => valuation.holds e (List.mem_of_mem_filter member)
  rw [based.solved] at found
  cases found
  exact holds

omit distinguished based in
theorem exists_of_mem_rootedUnder {e : Equation} (member : e ∈ rootedUnder f base equations) :
    ∃ origin ∈ equations, isRooted f origin = true ∧ e = base.applyEquation origin ∧ e.isTrivial = false := by
  obtain ⟨inside, proper⟩ := List.mem_filter.mp member
  obtain ⟨origin, rooted, rfl⟩ := List.mem_map.mp inside
  exact ⟨origin, List.mem_of_mem_filter rooted, (List.mem_filter.mp rooted).2, rfl, by simpa using proper⟩

private theorem Based.holds_rooted (valuation : Valuation f equations m) :
    ∀ e ∈ rootedUnder f base equations, e.Holds m := by
  intro e member
  obtain ⟨origin, inside, _, rfl, _⟩ := exists_of_mem_rootedUnder member
  have holds := based.holds distinguished valuation
  exact (holds.apply origin.lhs).trans ((valuation.holds origin inside).trans (holds.apply origin.rhs).symm)

theorem Based.canonical : EverySide (fun t => t.isCanonical = true) (rootedUnder f base equations) :=
  everySide_rootedUnder Term.hereditary_isCanonical.substitutive
    (fun t member => Term.isCanonical_of_free (based.isFree_range distinguished t member)) distinguished.canonical

private theorem Based.plain : EverySide (Plain f) (rootedUnder f base equations) := by
  have known := distinguished.numbered
  have free := based.isFree_range distinguished
  have roots := everySide_rootedUnder (f := f) (Term.hereditary_over _).substitutive
    (range_of_unifyAll (Term.hereditary_over _) (everySide_filter known _) based.solved) known
  have spelled := everySide_rootedUnder (f := f) (Term.hereditary_over _).substitutive
    (fun t member g occurs => .inr (free t member g occurs)) distinguished.spelled
  have binary := everySide_rootedUnder (f := f) (Term.hereditary_isAtLeastBinary f).substitutive
    (fun t member => isAtLeastBinary_of_isFree distinguished.laws (free t member)) distinguished.binary
  intro e member
  exact ⟨⟨head?_of_isRootedAt (roots e member).1, (spelled e member).1, (binary e member).1⟩,
    ⟨head?_of_isRootedAt (roots e member).2, (spelled e member).2, (binary e member).2⟩⟩

private theorem Based.head?_apply {t : Term} (spelled : t.AppliesOnly f) :
    (base.apply t).head? = some f ↔ t.head? = some f := by
  rcases base.apply_eq_or t with rebuilt | ⟨_, kept⟩
  · rw [rebuilt, head?_instantiate distinguished.laws spelled (based.isFree_image distinguished)]
  · rw [kept]

omit based distinguished in
theorem isRootedAt_of_head? {t : Term} (root : t.head? = some f) : t.isRootedAt f.id = true := by
  obtain ⟨args, rfl⟩ := Term.exists_of_head? root
  exact beq_self_eq_true _

private theorem Based.exists_root {e : Equation} (member : e ∈ rootedUnder f base equations) :
    e.lhs.head? = some f ∨ e.rhs.head? = some f := by
  obtain ⟨origin, inside, rooted, rfl, _⟩ := exists_of_mem_rootedUnder member
  have known := distinguished.numbered origin inside
  have spelled := distinguished.spelled origin inside
  rw [isRooted, Bool.or_eq_true] at rooted
  rcases rooted with left | right
  · exact .inl ((based.head?_apply distinguished spelled.1).mpr (head?_of_isRootedAt known.1 left))
  · exact .inr ((based.head?_apply distinguished spelled.2).mpr (head?_of_isRootedAt known.2 right))

private theorem Based.sort_arguments {t : Term} (spelled : t.AppliesOnly f) (canonical : t.isCanonical = true)
    (sorted : t.isWellSorted = true) (root : (base.apply t).head? = some f) :
    ∀ a ∈ (base.apply t).arguments, a.sort = f.domain := by
  have origin := (based.head?_apply distinguished spelled).mp root
  obtain ⟨args, rfl⟩ := Term.exists_of_head? origin
  have laws := distinguished.laws
  have sorts := (Term.isWellSorted_node.mp sorted).1
  rcases base.apply_eq_or (.node f args) with rebuilt | ⟨_, kept⟩
  · have plain : ∀ arg ∈ args.map (Term.instantiate base.image), arg.head? ≠ some f := by
      intro arg member
      obtain ⟨old, present, rfl⟩ := List.mem_map.mp member
      rw [Ne, head?_instantiate laws ((Term.over_node.mp spelled).2 old present) (based.isFree_image distinguished)]
      exact (Term.isReduced_iff.mp (Term.isCanonical_node.mp canonical).1).1
        (Term.isAssociative_of_laws laws) old present
    have built : base.apply (.node f args) = .node f (args.map (Term.instantiate base.image)) := by
      rw [rebuilt, Term.instantiate_node]
      simp only [Term.app, laws, spliced_eq_self plain]
    rw [built]
    intro a member
    obtain ⟨old, present, rfl⟩ := List.mem_map.mp member
    rw [Term.sort_instantiate (based.sortPreserving distinguished).image
      (ne_idempotent_of_over laws ((Term.over_node.mp spelled).2 old present)), sorts old present]
  · rw [kept]
    exact sorts

private theorem Based.sort_members (valuation : Valuation f equations m) :
    ∀ e ∈ rootedUnder f base equations, ∀ a ∈ membersOf f e, a.sort = f.domain := by
  intro e member
  have plain := based.plain distinguished e member
  have sides : e.lhs.sort = f.domain ∧ e.rhs.sort = f.domain := by
    have combination {t : Term} (root : t.head? = some f) : t.sort = f.domain := by
      obtain ⟨args, rfl⟩ := Term.exists_of_head? root
      exact distinguished.sorts.symm
    have same := sort_eq_of_shape_eq distinguished.laws plain.1.spelled plain.2.spelled valuation.sorted
      (based.holds_rooted distinguished valuation e member)
    rcases based.exists_root distinguished member with left | right
    · exact ⟨combination left, same ▸ combination left⟩
    · exact ⟨same.trans (combination right), combination right⟩
  obtain ⟨origin, inside, _, rfl, _⟩ := exists_of_mem_rootedUnder member
  have within {t : Term} (spelled : t.AppliesOnly f) (canonical : t.isCanonical = true)
      (sorted : t.isWellSorted = true) (root : (base.apply t).isRootedAt f.id = true → (base.apply t).head? = some f)
      (sort : (base.apply t).sort = f.domain) : ∀ a ∈ members f (base.apply t), a.sort = f.domain := by
    simp only [members]
    split
    next rooted => exact based.sort_arguments distinguished spelled canonical sorted (root rooted)
    next => exact List.forall_mem_singleton.mpr sort
  have spelled := distinguished.spelled origin inside
  have canonical := distinguished.canonical origin inside
  have sorted := distinguished.sorted origin inside
  exact List.forall_mem_append.mpr ⟨within spelled.1 canonical.1 sorted.1 plain.1.root sides.1,
    within spelled.2 canonical.2 sorted.2 plain.2.root sides.2⟩

theorem Based.ready (checked : check f (rootedUnder f base equations) = .ok ()) : Ready f
    (rootedUnder f base equations) where
  laws := distinguished.laws
  sorts := distinguished.sorts.symm
  canonical := based.canonical distinguished
  plain := based.plain distinguished
  members := of_check_ok checked
  proper e member := by
    obtain ⟨_, _, _, _, proper⟩ := exists_of_mem_rootedUnder member
    exact proper

/-- With a solution, the checks turn down nothing but an atom of the right sort. -/
theorem Based.exists_of_check (valuation : Valuation f equations m) {failure : Failure}
    (failed : check f (rootedUnder f base equations) = .error failure) :
    ∃ e ∈ rootedUnder f base equations, ∃ a ∈ membersOf f e, a.sort = f.domain ∧ checkAtom f a = .error failure := by
  rcases exists_of_check_error failed with ⟨e, member, sides⟩ | ⟨e, member, a, occurs, atom⟩
  · have plain := based.plain distinguished e member
    have rooted : isRooted f e = true := by
      rw [isRooted, Bool.or_eq_true]
      exact (based.exists_root distinguished member).imp isRootedAt_of_head? isRootedAt_of_head?
    rw [checkSides_of_holds distinguished.laws plain.1 plain.2 valuation.binary rooted
      (based.holds_rooted distinguished valuation e member)] at sides
    cases sides
  · exact ⟨e, member, a, occurs, based.sort_members distinguished valuation e member a occurs, atom⟩

end Based

inductive Rejected (f : FunctionSymbol) (equations : List Equation) : Failure → Prop where
  | combiner {failure : Failure} (failed : combiner? equations = .error failure) : Rejected f equations failure
  | below (inside : (unrooted f equations).any (occursIn f) = true) :
      Rejected f equations (.unsupported .combinerBelowOther)
  | rooted {base : Substitution} {failure : Failure} (based : Based equations f base)
      (failed : check f (rootedUnder f base equations) = .error failure) : Rejected f equations failure

/-- The assignment is an instance of the substitution, on the variables numbered below the bound;
the instance keeps sorts if the assignment is well-sorted. -/
def Covers (n : Nat) (m : Variable → Term) (σ : Substitution) : Prop :=
  ∃ μ : Variable → Term, (∀ v, v.id.index < n → (m v).shape = ((σ.image v).instantiate μ).shape) ∧
    ((∀ v, (m v).sort = v.sort ∧ (m v).isWellSorted = true) → ∀ v, (μ v).sort = v.sort)

private theorem covers_of_holds {n : Nat} {m : Variable → Term} {σ : Substitution} (holds : σ.Holds m) :
    Covers n m σ :=
  ⟨m, fun v _ => holds v, fun sorted v => (sorted v).1⟩

section Cases

variable {f : FunctionSymbol} {equations : List Equation} {m : Variable → Term} {limits : Limits} {n : Nat}
  (distinguished : Distinguished f equations) (valuation : Valuation f equations m)
  (old : ∀ v ∈ equations.flatMap Equation.vars, v.id.index < n)
include distinguished valuation

include old in
/-- Among the combinations is one of which the solution is an instance. -/
theorem Prepared.exists_covers {base : Substitution} {shares : List Share}
    (prepared : Prepared limits n equations f base shares) :
    ∃ σ ∈ combinations f base (rootedUnder f base equations) shares, Covers n m σ := by
  obtain ⟨based, some, checked, vectors, solved, drawn⟩ := prepared
  obtain ⟨chosen, among, nonempty, θ, assembled, solves, μ, general, sorted⟩ :=
    (based.ready distinguished checked).exists_general some
    solved drawn valuation.binary (based.holds_rooted distinguished valuation)
  refine ⟨base.compose θ, mem_combinations.mpr ⟨chosen, among, nonempty, θ, assembled, solves, rfl⟩, μ,
    fun v inside => ?_, sorted⟩
  have bounded : ∀ w ∈ (base.image v).vars, w.id.index < n := by
    intro w occurs
    rcases base.image_mem_or v with bound | ⟨_, free⟩
    · have scope := (solved_of_unifyAll based.solved).2.1 _ (Substitution.mem_range_of_mem bound) w occurs
      obtain ⟨e, member, deeper⟩ := List.mem_flatMap.mp scope
      exact old w (List.mem_flatMap.mpr ⟨e, List.mem_of_mem_filter member, deeper⟩)
    · rw [free] at occurs
      rwa [List.mem_singleton.mp occurs]
  calc (m v).shape
      = ((base.image v).instantiate m).shape := based.holds distinguished valuation v
    _ = ((base.image v).instantiate fun w => (θ.image w).instantiate μ).shape :=
        Term.instantiate_congr_left fun w occurs => (general w (bounded w occurs)).symm
    _ = ((θ.apply (base.image v)).instantiate μ).shape := (Substitution.instantiate_apply θ μ _).symm
    _ = (((base.compose θ).image v).instantiate μ).shape :=
        Term.instantiate_congr (Substitution.shape_image_compose base θ v).symm μ

include old in
/-- Every solution is an instance of a unifier that is found. -/
theorem Found.exists_covers {unifiers : List Substitution} (found : Found limits n equations unifiers) :
    ∃ σ ∈ unifiers, Covers n m σ := by
  cases found with
  | @plain σ free solved =>
    obtain ⟨σ', again, holds⟩ :=
      unifyAll_of_holds (distinguished.isFree_of_combiner? free) valuation.sorted valuation.holds
    rw [solved] at again
    cases again
    exact ⟨σ, List.mem_singleton_self σ, covers_of_holds holds⟩
  | @based g base based none =>
    obtain rfl := distinguished.eq_of_combiner? based.combiner
    exact ⟨base, List.mem_singleton_self base, covers_of_holds (based.holds distinguished valuation)⟩
  | @combined g base shares prepared =>
    obtain rfl := distinguished.eq_of_combiner? prepared.based.combiner
    exact prepared.exists_covers distinguished valuation old

include old in
/-- When there is a solution, the search fails only at a limit or at what it turns down from the start. -/
theorem Failed.limitReached_or_rejected {failure : Failure} (failed : Failed limits n equations failure) :
    (∃ limit, failure = .limitReached limit) ∨ Rejected f equations failure := by
  cases failed with
  | combiner failed => exact .inr (.combiner failed)
  | plain free failed =>
    obtain ⟨σ, solved, _⟩ :=
      unifyAll_of_holds (distinguished.isFree_of_combiner? free) valuation.sorted valuation.holds
    rw [failed] at solved
    cases solved
  | @below g combiner inside =>
    obtain rfl := distinguished.eq_of_combiner? combiner
    exact .inr (.below inside)
  | @unrooted g failure combiner apart failed =>
    obtain rfl := distinguished.eq_of_combiner? combiner
    obtain ⟨σ, solved, _⟩ := unifyAll_of_holds (distinguished.isFree_unrooted apart) valuation.sorted
      fun e member => valuation.holds e (List.mem_of_mem_filter member)
    rw [failed] at solved
    cases solved
  | @rooted g base failure based failed =>
    obtain rfl := distinguished.eq_of_combiner? based.combiner
    exact .inr (.rooted based failed)
  | basis _ failed => exact .inl (limitReached_of_solutionVectors failed)
  | @combination g base shares prepared none =>
    obtain rfl := distinguished.eq_of_combiner? prepared.based.combiner
    obtain ⟨σ, member, _⟩ := prepared.exists_covers distinguished valuation old
    rw [none] at member
    cases member

private theorem Rejected.unsupported {failure : Failure} (rejected : Rejected f equations failure) :
    ∃ cause, failure = .unsupported cause := by
  cases rejected with
  | combiner failed =>
    have spec := combiner?_spec equations
    rw [failed] at spec
    exact ⟨_, spec⟩
  | below _ => exact ⟨_, rfl⟩
  | rooted based failed =>
    obtain ⟨_, _, a, _, sort, atom⟩ := based.exists_of_check distinguished valuation failed
    have spec := checkAtom_spec f a
    rw [atom] at spec
    exact ⟨_, spec sort⟩

include old in
/-- When there is a solution, the search fails only at a limit or at what it does not support. -/
theorem Failed.limitReached_or_unsupported {failure : Failure} (failed : Failed limits n equations failure) :
    (∃ limit, failure = .limitReached limit) ∨ ∃ cause, failure = .unsupported cause :=
  (failed.limitReached_or_rejected distinguished valuation old).imp_right fun rejected =>
    rejected.unsupported distinguished valuation

end Cases

end Equational.AC

namespace Equational.Problem

open AC

private theorem valuation_image {f : FunctionSymbol} {equations : List Equation} {τ : Substitution}
    (admissible : Admissible f equations) (sorted : τ.SortPreserving)
    (binary : ∀ t ∈ τ.range, t.isAtLeastBinary f = true) (unifies : τ.Unifies equations) :
    Valuation f equations τ.image where
  sorted := sorted.image
  binary := Substitution.image_hereditary (Term.hereditary_isAtLeastBinary f) binary
  holds := (Substitution.unifies_iff admissible.canonical).mp unifies

private theorem isWellSorted_image {τ : Substitution} (sorted : ∀ t ∈ τ.range, t.isWellSorted = true) (v : Variable) :
    (τ.image v).isWellSorted = true := by
  rcases τ.image_mem_or v with bound | ⟨_, free⟩
  · exact sorted _ (Substitution.mem_range_of_mem bound)
  · rw [free]
    exact Term.everyNode_var v

private theorem exists_instance {n : Nat} {vars : List Variable} {σ τ : Substitution} (covers : Covers n τ.image σ)
    (old : ∀ v ∈ vars, v.id.index < n) (canonical : ∀ t ∈ σ.range, t.isCanonical = true) (sorted : τ.SortPreserving) :
    ∃ ρ : Substitution, (∀ v ∈ vars, (τ.apply (.var v) == ρ.apply (σ.apply (.var v))) = true) ∧
      ((∀ t ∈ τ.range, t.isWellSorted = true) → ρ.SortPreserving) := by
  obtain ⟨μ, general, keeps⟩ := covers
  refine ⟨.tabulate μ (vars.flatMap fun v => (σ.image v).vars), fun v member => ?_, fun wellSorted => ?_⟩
  · rw [Term.beq_iff_shape, Substitution.apply_var, Substitution.apply_var, general v (old v member),
      Substitution.shape_apply _ (Substitution.image_hereditary Term.hereditary_isCanonical canonical v)]
    refine Term.instantiate_congr_left ?_
    intro w occurs
    rw [Substitution.image_tabulate (List.mem_flatMap.mpr ⟨v, member, occurs⟩)]
  · exact Substitution.sortPreserving_tabulate (keeps fun v => ⟨sorted.image v, isWellSorted_image wellSorted v⟩) _

/-- Two combinations of a variable and a constant, where each variable may stand for the constant of
the other side and both for more. -/
def exchange (f : FunctionSymbol) (x y : Variable) (a b : Constant) : Problem :=
  ⟨[⟨.node f [.var x, .const a], .node f [.var y, .const b]⟩]⟩

end Equational.Problem
