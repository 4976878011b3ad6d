import Equational.Proofs.AC.Completeness
import Equational.Proofs.AC.Resolved
import Equational.Proofs.Unification.CompleteSet

/-! Combinations: regular terms in which nothing is applied but the one associative-commutative symbol.
Nothing is turned down in equations of combinations, and the unifiers that are found bind variables to
combinations again. So they are a complete set among combinations, unless a limit is reached. -/

namespace Equational

namespace Term

variable {f h : FunctionSymbol} {t : Term} {args : List Term} {v : Variable} {m : Variable → Term}

/-- A regular term in which only `f` is applied. -/
def IsCombination (f : FunctionSymbol) (t : Term) : Prop :=
  t.isRegular f = true ∧ t.Over (· = f)

theorem isCombination_var : (var v).IsCombination f ↔ v.sort = f.range := by
  rw [IsCombination, isRegular_var]
  exact and_iff_left ((hereditary_over _).var v)

theorem isCombination_of_isSimple (simple : t.isSimple = true) (sort : t.sort = f.range) : t.IsCombination f := by
  cases t with
  | var v => exact isCombination_var.mpr sort
  | const c => exact ⟨by simpa [isRegular, everyNode_const] using sort, by simp [Over, symbols]⟩
  | node g args => cases simple

theorem isCombination_node : (node h args).IsCombination f ↔ h = f ∧ 2 ≤ args.length ∧
    ∀ arg ∈ args, arg.IsCombination f := by
  rw [IsCombination, isRegular_node, over_node]
  constructor
  · rintro ⟨⟨_, _, many, regular⟩, rfl, spelled⟩
    exact ⟨rfl, many rfl, fun arg member => ⟨regular arg member, spelled arg member⟩⟩
  · rintro ⟨rfl, many, each⟩
    exact ⟨⟨.inl rfl, rfl, fun _ => many, fun arg member => (each arg member).1⟩, rfl,
      fun arg member => (each arg member).2⟩

theorem IsCombination.sort (combination : t.IsCombination f) : t.sort = f.range :=
  sort_of_isRegular combination.1

private theorem IsCombination.isSimple (combination : t.IsCombination f) (plain : t.head? ≠ some f) :
    t.isSimple = true := by
  cases t with
  | var v | const c => rfl
  | node h args => exact absurd (congrArg some (isCombination_node.mp combination).1) plain

private theorem IsCombination.isWellSorted (sorts : f.domain = f.range) (combination : t.IsCombination f) :
    t.isWellSorted = true := by
  induction t with
  | var v => exact everyNode_var v
  | const c => exact everyNode_const c
  | node h args ih =>
    obtain ⟨rfl, _, each⟩ := isCombination_node.mp combination
    exact isWellSorted_node.mpr ⟨fun arg member => (each arg member).sort.trans sorts.symm,
      fun arg member => ih arg member (each arg member)⟩

section Laws

variable (laws : f.theory = .associativeCommutative)
include laws

private theorem isCombination_app (many : 2 ≤ args.length) (each : ∀ arg ∈ args, arg.IsCombination f) :
    (app f args).IsCombination f := by
  refine ⟨isRegular_app laws (.inl rfl) rfl (fun _ => many) fun arg member => (each arg member).1, fun g occurs => ?_⟩
  rcases mem_symbols_app occurs with same | ⟨arg, member, inside⟩
  · exact same
  · exact (each arg member).2 g inside

theorem nameable_isCombination : Nameable (IsCombination f) where
  argument combination := (isCombination_node.mp combination).2.2
  rebuild combination lengths each := by
    obtain ⟨rfl, many, _⟩ := isCombination_node.mp combination
    exact isCombination_app laws (by rwa [lengths]) each
  name combination sort := isCombination_var.mpr (sort.trans combination.sort)
  kept combination := by
    obtain ⟨rfl, _, _⟩ := isCombination_node.mp combination
    simp [laws]

theorem substitutive_isCombination : Substitutive (IsCombination f) :=
  (nameable_isCombination laws).toStable.substitutive

private theorem IsCombination.isSimple_argument (combination : (node h args).IsCombination f)
    (canonical : (node h args).isCanonical = true) :
    ∀ arg ∈ args, arg.isSimple = true := by
  obtain ⟨rfl, _, each⟩ := isCombination_node.mp combination
  intro arg member
  exact (each arg member).isSimple ((isReduced_iff.mp (isCanonical_node.mp canonical).1).1
    (isAssociative_of_laws laws) arg member)

/-- The value of a variable in an application weighs less than the value of the application. -/
theorem IsCombination.weight_lt (combination : (node h args).IsCombination f) (suits : Suits (IsCombination f) m)
    (occurs : v ∈ (node h args).vars) : weight f (m v) < weight f ((node h args).instantiate m) := by
  obtain ⟨rfl, many, each⟩ := isCombination_node.mp combination
  obtain ⟨arg, member, inside⟩ := mem_varsList.mp occurs
  have bounded := weight_le_of_mem_vars laws (fun g applied => .inl ((each arg member).2 g applied)) inside m
  rw [instantiate_node]
  refine Nat.lt_of_le_of_lt bounded (weight_lt_app laws (by simpa using many) (fun other listed => ?_) _
    (List.mem_map_of_mem member))
  obtain ⟨origin, present, rfl⟩ := List.mem_map.mp listed
  exact isAtLeastBinary_of_isRegular ((nameable_isCombination laws).instantiate suits (each origin present)).1.1

/-- No instance of an application is a constant. -/
theorem IsCombination.shape_ne_const (combination : (node h args).IsCombination f) (m : Variable → Term)
    (c : Constant) :
    ((node h args).instantiate m).shape ≠ .const c := by
  obtain ⟨rfl, _, _⟩ := isCombination_node.mp combination
  intro same
  have root := congrArg head? same
  rw [head?_shape, instantiate_node] at root
  simp [app, laws, head?] at root

end Laws

theorem suits_isCombination {σ : Substitution} (range : ∀ t ∈ σ.range, t.IsCombination f) :
    Suits (IsCombination f) σ.image := by
  intro v named
  have image : (σ.image v).IsCombination f := image_of_range range v named
  exact ⟨image, image.sort.trans named.sort.symm⟩

end Term

namespace AC

open Search Term

/-- The equations are between combinations in canonical form, of one sort. -/
structure Combinations (f : FunctionSymbol) (equations : List Equation) : Prop where
  laws : f.theory = .associativeCommutative
  sorts : f.domain = f.range
  sides : EverySide (IsCombination f) equations
  canonical : EverySide (fun t => t.isCanonical = true) equations

variable {f : FunctionSymbol} {equations : List Equation} {base σ : Substitution} {m : Variable → Term}
  {limits : Limits} {n : Nat} {failure : Failure} {unifiers : List Substitution}

private theorem exists_valuation (sorts : f.domain = f.range) (suits : Suits (IsCombination f) m)
    (sides : EverySide (IsCombination f) equations)
    (holds : ∀ e ∈ equations, e.Holds m) : ∃ m', Valuation f equations m' ∧ (∀ v, (m' v).isWellSorted = true) ∧
      ∀ v, v.sort = f.range → m' v = m v := by
  let m' (v : Variable) : Term := if v.sort = f.range then m v else .var v
  have same {v : Variable} (sort : v.sort = f.range) : m' v = m v := if_pos sort
  have values (v : Variable) : (m' v).sort = v.sort ∧ (m' v).isAtLeastBinary f = true ∧
      (m' v).isWellSorted = true := by
    by_cases sort : v.sort = f.range
    · obtain ⟨combination, kept⟩ := suits v (isCombination_var.mpr sort)
      rw [same sort]
      exact ⟨kept, isAtLeastBinary_of_isRegular combination.1, combination.isWellSorted sorts⟩
    · have free : m' v = .var v := if_neg sort
      rw [free]
      exact ⟨rfl, everyNode_var v, everyNode_var v⟩
  refine ⟨m', ⟨fun v => (values v).1, fun v => (values v).2.1, fun e member => ?_⟩, fun v => (values v).2.2,
    fun v sort => same sort⟩
  have agree {t : Term} (combination : t.IsCombination f) : (t.instantiate m').shape = (t.instantiate m).shape :=
    instantiate_congr_left fun v occurs => by rw [same (sort_of_mem_vars combination.1 occurs)]
  exact (agree (sides e member).1).trans ((holds e member).trans (agree (sides e member).2).symm)

namespace Combinations

variable (combinations : Combinations f equations)
include combinations

theorem eq_of_mem_symbols {g : FunctionSymbol} (occurs : g ∈ equations.flatMap Equation.symbols) : g = f := by
  obtain ⟨e, member, inside⟩ := List.mem_flatMap.mp occurs
  exact (List.mem_append.mp inside).elim ((combinations.sides e member).1.2 g) ((combinations.sides e member).2.2 g)

private theorem distinguished : Distinguished f equations where
  laws := combinations.laws
  sorts := combinations.sorts
  symbols _ occurs := .inl (combinations.eq_of_mem_symbols occurs)
  canonical := combinations.canonical
  sorted := combinations.sides.imp fun combination => combination.isWellSorted combinations.sorts
  binary := combinations.sides.imp fun combination => isAtLeastBinary_of_isRegular combination.1
  alone _ occurs _ := combinations.eq_of_mem_symbols occurs

private theorem formed : EverySide (WellFormed (· = f)) equations := fun e member =>
  ⟨⟨(combinations.canonical e member).1, (combinations.sides e member).1.2⟩,
    ⟨(combinations.canonical e member).2, (combinations.sides e member).2.2⟩⟩

private theorem filter (test : Equation → Bool) : Combinations f (equations.filter test) :=
  ⟨combinations.laws, combinations.sorts, everySide_filter combinations.sides test,
    everySide_filter combinations.canonical test⟩

private theorem combiner?_ne_error : combiner? equations ≠ .error failure := by
  have only : ∀ g ∈ equations.flatMap fun e => combiners e.lhs ++ combiners e.rhs, g = f := by
    intro g member
    obtain ⟨e, listed, inside⟩ := List.mem_flatMap.mp member
    refine combinations.eq_of_mem_symbols (List.mem_flatMap.mpr ⟨e, listed, List.mem_append.mpr ?_⟩)
    exact (List.mem_append.mp inside).imp (fun left => (mem_combiners.mp left).1) fun right =>
      (mem_combiners.mp right).1
  rw [combiner?]
  split
  · simp
  next g others shape =>
    rw [shape] at only
    obtain ⟨first, rest⟩ := List.forall_mem_cons.mp only
    rw [if_pos (by simpa [first] using fun other member => congrArg FunctionSymbol.id (rest other member))]
    simp

private theorem apart : (unrooted f equations).any (occursIn f) = false := by
  rw [List.any_eq_false]
  intro e member
  obtain ⟨listed, passes⟩ := List.mem_filter.mp member
  simp only [isRooted, Bool.not_eq_true', Bool.or_eq_false_iff] at passes
  have absent {t : Term} (combination : t.IsCombination f) (plain : t.isRootedAt f.id = false) :
      t.mentions f.id = false := by
    cases t with
    | var v | const c => rfl
    | node h args => simp [(isCombination_node.mp combination).1, isRootedAt] at plain
  simp [occursIn, absent (combinations.sides e listed).1 passes.1, absent (combinations.sides e listed).2 passes.2]

section Based

variable (based : Based equations f base)
include based

private theorem range_base : ∀ t ∈ base.range, t.IsCombination f :=
  range_of_substitutive (substitutive_isCombination combinations.laws)
    (everySide_filter combinations.sides _) based.solved

private theorem everySide_rooted : EverySide (IsCombination f) (rootedUnder f base equations) :=
  everySide_rootedUnder (substitutive_isCombination combinations.laws)
    (combinations.range_base based) combinations.sides

private theorem isSimple_of_mem_members {e : Equation} (member : e ∈ rootedUnder f base equations) :
    ∀ a ∈ membersOf f e, a.isSimple = true := by
  have sides := combinations.everySide_rooted based e member
  have canonical := based.canonical combinations.distinguished e member
  have leaves {t : Term} (combination : t.IsCombination f) (canonical : t.isCanonical = true) :
      ∀ a ∈ members f t, a.isSimple = true := by
    simp only [members]
    split
    next rooted =>
      cases t with
      | var v | const c => cases rooted
      | node h args => exact combination.isSimple_argument combinations.laws canonical
    next plain =>
      exact List.forall_mem_singleton.mpr (combination.isSimple fun root => plain (isRootedAt_of_head? root))
  exact List.forall_mem_append.mpr ⟨leaves sides.1 canonical.1, leaves sides.2 canonical.2⟩

end Based

private theorem not_rejected (valuation : Valuation f equations m) : ¬ Rejected f equations failure := by
  intro rejected
  cases rejected with
  | combiner failed => exact combinations.combiner?_ne_error failed
  | below inside => simp [combinations.apart] at inside
  | rooted based failed =>
    obtain ⟨e, member, a, occurs, sort, atom⟩ := based.exists_of_check combinations.distinguished valuation failed
    have leaf := combinations.isSimple_of_mem_members based member a occurs
    simp only [checkAtom, sort, bne_self_eq_false, Bool.false_eq_true, ↓reduceIte] at atom
    cases a with
    | var v | const c => simp [isVariable, isGround, vars] at atom
    | node h args => cases leaf

private theorem range_of_found (found : Found limits n equations unifiers) :
    ∀ σ ∈ unifiers, ∀ t ∈ σ.range, t.IsCombination f := by
  refine found.range (substitutive_isCombination combinations.laws) combinations.sides
    (fun g combiner args many each => ?_)
    fun g combiner v sort => ?_
  · obtain rfl := combinations.distinguished.eq_of_combiner? combiner
    exact isCombination_app combinations.laws many each
  · obtain rfl := combinations.distinguished.eq_of_combiner? combiner
    exact isCombination_var.mpr (sort.trans combinations.sorts)

end Combinations

def InUse (f : FunctionSymbol) (n : Nat) (v : Variable) : Prop :=
  v.sort = f.range ∧ v.id.index < n

/-- Unless a limit is reached, the unifiers of combinations that are found are a complete set, and if there are none,
then nothing satisfies the equations. -/
theorem ends_solve_combinations {session : Session} (limits : Limits) (combinations : Combinations f equations)
    (inUse : ∀ v ∈ equations.flatMap Equation.vars, v.id.index < session.names) :
    (solve limits equations).Ends session
      (fun unifiers _ => CompleteSet (IsCombination f) equations (InUse f session.names) unifiers)
      (fun failure => failure.IsLimit ∨ ∀ m, Suits (IsCombination f) m → ¬ ∀ e ∈ equations, e.Holds m) := by
  have proper := combinations.filter (!·.isTrivial)
  have old : ∀ v ∈ (equations.filter (!·.isTrivial)).flatMap Equation.vars, v.id.index < session.names := by
    intro v occurs
    obtain ⟨e, member, inside⟩ := List.mem_flatMap.mp occurs
    exact inUse v (List.mem_flatMap.mpr ⟨e, List.mem_of_mem_filter member, inside⟩)
  have valuation {m : Variable → Term} (suits : Suits (IsCombination f) m) (holds : ∀ e ∈ equations, e.Holds m) :=
    exists_valuation combinations.sorts suits proper.sides fun e member => holds e (List.mem_of_mem_filter member)
  refine ((ends_solve limits equations).and (ends_solve_resolved limits inUse)).mono ?_ ?_
  · rintro unifiers _ _ ⟨found, some, _⟩
    have range := proper.range_of_found found
    have consistent : Consistent (· = f) := fun g h left right _ => left.trans right.symm
    have sound := found.sound consistent proper.formed
    refine ⟨some, fun σ member v _ => ?_, fun σ member => ⟨σ.image, suits_isCombination (range σ member), ?_,
      fun _ _ => rfl⟩, ?_⟩
    · exact Substitution.image_hereditary hereditary_isCanonical
        (fun t inside => ((sound σ member).formed t inside).canonical) v
    · exact (sound σ member).of_filter.holds
    · intro m suits holds
      obtain ⟨m', valuation, sorted, same⟩ := valuation suits holds
      obtain ⟨σ, member, μ, general, keeps⟩ := found.exists_covers proper.distinguished valuation old
      refine ⟨σ, member, μ, keeps fun v => ⟨valuation.sorted v, sorted v⟩, fun v inside => ?_⟩
      rw [← same v inside.1]
      exact general v inside.2
  · rintro failure ⟨failed, _⟩
    by_contra! other
    obtain ⟨unlimited, m, suits, holds⟩ := other
    obtain ⟨m', valuation, _, _⟩ := valuation suits holds
    rcases failed.limitReached_or_rejected proper.distinguished valuation old with limit | rejected
    · exact unlimited limit
    · exact proper.not_rejected valuation rejected

end AC

end Equational
