import Equational.Proofs.Matching
import Mathlib.Data.List.Permutation

/-! When matching finds a match that exists. The first order of a pair in which the parts match is kept, and what
comes after the pair cannot undo the choice. Nothing is lost where the choice does not matter to what comes
after, because the variables that occur there get the same values in both orders. -/

namespace Equational.Term

variable {m m' : Variable → Term} {pattern s t u : Term} {ts : List Term} {before after : List Variable}
  {bindings extended : List (Variable × Term)}

/-- Whatever the pattern is matched with, the values of the variables that are bound before determine those of the
variables that occur after, as far as they occur in it. -/
def Settles (before after : List Variable) (s : Term) : Prop :=
  ∀ ⦃m m' t⦄, Matches m s t → Matches m' s t → (∀ v ∈ s.vars, v ∈ before → (m v).shape = (m' v).shape) →
    ∀ v ∈ s.vars, v ∈ after → (m v).shape = (m' v).shape

/-- A pattern that brings in no variable that occurs after it. -/
theorem settles_of_bound (bound : ∀ v ∈ s.vars, v ∈ after → v ∈ before) : Settles before after s :=
  fun _ _ _ _ _ agree v occurs later => agree v occurs (bound v occurs later)

private theorem forall₂_join {R S T : Term → Term → Prop} {xs ys zs : List Term} (first : List.Forall₂ R xs ys)
    (second : List.Forall₂ S xs zs) (join : ∀ x ∈ xs, ∀ {y z}, R x y → S x z → T y z) : List.Forall₂ T ys zs := by
  induction first generalizing zs with
  | nil =>
    cases second
    exact .nil
  | cons head _ ih =>
    cases second with
    | cons head' rest' =>
      obtain ⟨here, later⟩ := List.forall_mem_cons.mp join
      exact .cons (here head head') (ih rest' later)

private theorem Matches.shape_eq (first : Matches m s t) (second : Matches m' s u)
    (agree : ∀ v ∈ s.vars, (m v).shape = (m' v).shape) :
    t.shape = u.shape := by
  induction s generalizing t u with
  | var v =>
    cases first with
    | var _ value =>
      cases second with
      | var _ value' => rw [← value, ← value', agree v (by simp [vars])]
  | const c =>
    cases first
    cases second
    rfl
  | node f patterns ih =>
    cases first with
    | @node _ _ ts args order each =>
      cases second with
      | @node _ _ ts' args' order' each' =>
        have same : List.Forall₂ (fun t u => t.shape = u.shape) ts ts' :=
          forall₂_join each each' fun p member _ _ matches₁ matches₂ =>
          ih p member matches₁ matches₂ fun v occurs => agree v (mem_varsList.mpr ⟨p, member, occurs⟩)
        refine shape_node_eq_iff.mpr ⟨rfl, ?_⟩
        exact (order.aligned.symm.shapes.trans (shapes_congr same)).trans order'.aligned.shapes

/-- In a pair of a variable and a pattern whose variables are bound before, the variable can have only
one value: the part of the term that the pattern leaves over. -/
theorem settles_pair {f : FunctionSymbol} {patterns : List Term} {v : Variable} (pair : patterns.Perm [.var v, s])
    (bound : ∀ w ∈ s.vars, w ∈ before) : Settles before after (.node f patterns) := by
  intro m m' t first second agree
  have occurs {w : Variable} : w ∈ (node f patterns).vars ↔ w = v ∨ w ∈ s.vars := by
    rw [vars, mem_varsList]
    simp [pair.mem_iff, vars]
  have known : ∀ w ∈ s.vars, (m w).shape = (m' w).shape := fun w inside =>
    agree w (occurs.mpr (.inr inside)) (bound w inside)
  cases first with
  | @node _ _ ts args order each =>
    cases second with
    | @node _ _ ts' args' order' each' =>
      obtain ⟨us, matches', same⟩ := List.perm_comp_forall₂ pair.symm each
      obtain ⟨us', matches'', same'⟩ := List.perm_comp_forall₂ pair.symm each'
      rcases matches' with _ | ⟨⟨_, value⟩, _ | ⟨whole, ⟨⟩⟩⟩
      rcases matches'' with _ | ⟨⟨_, value'⟩, _ | ⟨whole', ⟨⟩⟩⟩
      -- The bound pattern takes the same part in both matches, so what is left for the variable is the same.
      have parts := ((same.trans order.aligned.perm).trans (same'.trans order'.aligned.perm).symm).map shape
      simp only [List.map_cons, List.map_nil, whole.shape_eq whole' known] at parts
      have rest := (List.perm_cons _).mp (((List.Perm.swap ..).trans parts).trans (List.Perm.swap ..))
      intro w inside _
      rcases occurs.mp inside with rfl | inside
      · rw [value, value', List.singleton_perm_singleton.mp rest]
      · exact known w inside

mutual

/-- Every pair inside the pattern settles what comes after it: the rest of the pattern, and the given variables. -/
def Settled (before after : List Variable) : Term → Prop
  | var _ => True
  | const _ => True
  | node f patterns =>
    (f.theory = .commutative → patterns.length = 2 → Settles before after (node f patterns)) ∧
      SettledList before after patterns

def SettledList (before after : List Variable) : List Term → Prop
  | [] => True
  | pattern :: patterns =>
    Settled before (varsList patterns ++ after) pattern ∧ SettledList (pattern.vars ++ before) after patterns

end

/-- The assignment gives the bound variables among the given ones what they are bound to. -/
def AgreesOn (vars : List Variable) (m : Variable → Term) (bindings : List (Variable × Term)) : Prop :=
  ∀ p ∈ bindings, p.1 ∈ vars → (m p.1).shape = p.2.shape

private theorem exists_agrees (distinct : (bindings.map Prod.fst).Nodup) : ∃ m, Agrees m bindings := by
  let σ : Substitution := ⟨bindings, distinct⟩
  exact ⟨σ.image, fun p member => congrArg shape (Substitution.image_of_mem member)⟩

private theorem agreesOn_of_settles (settles : Settles before after pattern) (matches' : Matches m pattern t)
    (matched : matchInto pattern t bindings = some extended) (distinct : (bindings.map Prod.fst).Nodup)
    (earlier : before ⊆ bindings.map Prod.fst) (agrees : AgreesOn (pattern.vars ++ after) m bindings) :
    AgreesOn after m extended := by
  have extends' := matchInto_extends pattern matched
  obtain ⟨m', found⟩ := exists_agrees (extends'.distinct distinct)
  have known : ∀ v ∈ pattern.vars, v ∈ before → (m v).shape = (m' v).shape := by
    intro v occurs bound
    obtain ⟨p, member, rfl⟩ := List.mem_map.mp (earlier bound)
    exact (agrees p member (List.mem_append_left _ occurs)).trans (found p (extends'.kept member)).symm
  intro p member later
  rcases matchInto_binds pattern matched p member with old | new
  · exact agrees p old (List.mem_append_right _ later)
  · exact (settles matches' (extends'.sound m' found) known p.1 new.listed later).trans (found p member)

mutual

/-- If the bindings agree with a match, as far as variables of the pattern and of what comes after it
are concerned, then the pattern is matched, and the bindings agree with the match as far as what comes
after is concerned. -/
theorem exists_matchInto (pattern : Term) {t : Term} {before after : List Variable}
    {bindings : List (Variable × Term)}
    (settled : Settled before after pattern) (matches' : Matches m pattern t)
    (distinct : (bindings.map Prod.fst).Nodup)
    (earlier : before ⊆ bindings.map Prod.fst) (agrees : AgreesOn (pattern.vars ++ after) m bindings) :
    ∃ extended, matchInto pattern t bindings = some extended ∧ AgreesOn after m extended :=
  match pattern with
  | var v => by
    cases matches' with
    | var sort value =>
      have kept : AgreesOn after m bindings := fun p member later => agrees p member (List.mem_append_right _ later)
      simp only [matchInto, sort, bne_self_eq_false, Bool.false_eq_true, ↓reduceIte]
      split
      next bound found =>
        obtain ⟨_, _, split, _⟩ := List.lookup_eq_some_iff.mp found
        have known : (m v).shape = bound.shape := agrees (v, bound) (by simp [split]) (by simp [vars])
        have same : (bound == t) = true := beq_iff_shape.mpr (known.symm.trans value)
        exact ⟨bindings, if_pos same, kept⟩
      next => exact ⟨_, rfl, List.forall_mem_append.mpr ⟨kept, List.forall_mem_singleton.mpr fun _ => value⟩⟩
  | const c => by
    cases matches'
    exact ⟨bindings, by simp [matchInto], agrees⟩
  | node f patterns => by
    cases matches' with
    | @node _ _ ts args order each =>
      have below := @exists_matchList patterns ts before after bindings settled.2 each distinct earlier agrees
      have lengths : patterns.length = args.length := each.length_eq.trans order.aligned.perm.length_eq
      by_cases pair : f.theory = .commutative ∧ patterns.length = 2
      -- The order that is found first need not be that of the match, but then the pair settles the difference.
      · cases first : matchList patterns args bindings with
        | some extended =>
          have matched : matchInto (.node f patterns) (.node f args) bindings = some extended := by
            simp [matchInto, pair, ← lengths, first]
          exact ⟨extended, matched,
            agreesOn_of_settles (settled.1 pair.1 pair.2) (.node order each) matched distinct earlier agrees⟩
        | none =>
          rcases order with rfl | ⟨_, _, rfl⟩
          · obtain ⟨extended, found, _⟩ := below
            cases first.symm.trans found
          · obtain ⟨extended, found, rest⟩ := below
            exact ⟨extended, by simp [matchInto, pair, ← lengths, first, found], rest⟩
      · have same : ts = args := order.resolve_right fun swapped => pair ⟨swapped.1, lengths.trans swapped.2.1⟩
        subst same
        obtain ⟨extended, found, rest⟩ := below
        refine ⟨extended, ?_, rest⟩
        rw [matchInto, if_neg (by simp [lengths]), if_neg (by simpa using pair), found]
termination_by structural pattern

theorem exists_matchList (patterns : List Term) {ts : List Term} {before after : List Variable}
    {bindings : List (Variable × Term)}
    (settled : SettledList before after patterns) (each : List.Forall₂ (Matches m) patterns ts)
    (distinct : (bindings.map Prod.fst).Nodup) (earlier : before ⊆ bindings.map Prod.fst)
    (agrees : AgreesOn (varsList patterns ++ after) m bindings) :
    ∃ extended, matchList patterns ts bindings = some extended ∧ AgreesOn after m extended :=
  match patterns with
  | [] => ⟨bindings, rfl, agrees⟩
  | pattern :: patterns => by
    cases each with
    | cons first rest =>
      rw [varsList, List.append_assoc] at agrees
      obtain ⟨middle, matched, agrees'⟩ := exists_matchInto pattern settled.1 first distinct earlier agrees
      have extends' := matchInto_extends pattern matched
      have earlier' : pattern.vars ++ before ⊆ middle.map Prod.fst :=
        List.append_subset.mpr ⟨extends'.bound, List.Subset.trans earlier (List.map_subset Prod.fst extends'.kept)⟩
      obtain ⟨extended, found, agrees''⟩ :=
        exists_matchList patterns settled.2 rest (extends'.distinct distinct) earlier' agrees'
      exact ⟨extended, by rw [matchList, matched, Option.bind_some, found], agrees''⟩
termination_by structural patterns

end

private theorem exists_match?_of_matches (settled : Settled [] [] pattern) (matches' : Matches m pattern t) :
    ∃ σ, pattern.match? t = some σ := by
  have found : ∃ bindings, matchInto pattern t [] = some bindings ∧ AgreesOn [] m bindings :=
    exists_matchInto pattern settled matches' List.nodup_nil (List.nil_subset _) (List.forall_mem_nil _)
  obtain ⟨bindings, matched, _⟩ := found
  exact (exists_match? matched).imp fun _ => And.left

/-- Whether the argument lists that the symbol does not tell apart are those that matching tries. -/
def isExchangeable (f : FunctionSymbol) (args : List Term) : Bool :=
  !f.theory.isCommutative || args.length ≤ 1 || f.theory == .commutative && args.length == 2

private theorem exists_exchanged {f : FunctionSymbol} {xs ys : List Term} (exchangeable : isExchangeable f xs = true)
    (aligned : Aligned f (xs.map shape) (ys.map shape)) :
    ∃ zs, Exchanged f zs ys ∧ List.Forall₂ (fun x z => x.shape = z.shape) xs zs := by
  have pointwise {zs : List Term} (same : xs.map shape = zs.map shape) :
      List.Forall₂ (fun x z => x.shape = z.shape) xs zs := by
    rwa [← List.forall₂_eq_eq_eq, List.forall₂_map_left_iff, List.forall₂_map_right_iff] at same
  have perm := aligned.perm
  by_cases same : xs.map shape = ys.map shape
  · exact ⟨ys, .inl rfl, pointwise same⟩
  · have commutative : f.theory.isCommutative = true := by
      by_contra ordered
      rw [Aligned, if_neg ordered] at aligned
      exact same aligned
    have many : ¬ xs.length ≤ 1 := by
      intro few
      rcases xs with _ | ⟨x, _ | ⟨x', rest⟩⟩
      · exact same perm.nil_eq
      · exact same (List.singleton_perm.mp perm)
      · simp at few
    simp only [isExchangeable, commutative, many, Bool.not_true, decide_false, Bool.or_self, Bool.false_or,
      Bool.and_eq_true, beq_iff_eq] at exchangeable
    obtain ⟨symbol, pair⟩ := exchangeable
    have lengths : xs.length = ys.length := by simpa using perm.length_eq
    obtain ⟨x, x', rfl⟩ := List.length_eq_two.mp pair
    obtain ⟨y, y', rfl⟩ := List.length_eq_two.mp (lengths.symm.trans pair)
    refine ⟨[y', y], .inr ⟨symbol, rfl, rfl⟩, pointwise ?_⟩
    have swapped := (List.pair_perm.mp perm).resolve_left (Ne.symm same)
    simpa [and_comm, eq_comm] using swapped

def isFlat (f : FunctionSymbol) (args : List Term) : Bool :=
  !(f.theory.isAssociative && args.any fun arg => arg.head? == some f)

private theorem isFlat_iff {f : FunctionSymbol} {args : List Term} :
    isFlat f args = true ↔ (f.theory.isAssociative = true → ∀ arg ∈ args, arg.head? ≠ some f) := by
  simp [isFlat, Classical.or_iff_not_imp_left]

/-- The two terms differ in nothing but the order of pairs. -/
inductive Rearranged : Term → Term → Prop where
  | var (v : Variable) : Rearranged (.var v) (.var v)
  | const (c : Constant) : Rearranged (.const c) (.const c)
  | node {f : FunctionSymbol} {xs zs ys : List Term} (order : Exchanged f zs ys)
      (each : List.Forall₂ Rearranged xs zs) :
      Rearranged (.node f xs) (.node f ys)

private theorem rearranged_of_equal (exchangeable : s.everyNode isExchangeable = true)
    (flat : s.everyNode isFlat = true)
    (flat' : t.everyNode isFlat = true) (same : s.shape = t.shape) : Rearranged s t := by
  induction s generalizing t with
  | var v =>
    rw [Substitution.eq_var_of_beq (beq_iff_shape.mpr same.symm)]
    exact .var v
  | const c =>
    cases t with
    | const d =>
      cases same
      exact .const c
    | var w | node g args => cases same
  | node f xs ih =>
    obtain ⟨ys, rfl⟩ := exists_of_shape_eq same
    obtain ⟨root, inside⟩ := everyNode_node.mp exchangeable
    obtain ⟨kept, below⟩ := everyNode_node.mp flat
    obtain ⟨kept', below'⟩ := everyNode_node.mp flat'
    have aligned := (shape_node_eq_iff.mp same).2
    rw [shapes_of_not_absorbed (isFlat_iff.mp kept), shapes_of_not_absorbed (isFlat_iff.mp kept')] at aligned
    obtain ⟨zs, order, equal⟩ := exists_exchanged root aligned
    refine .node order (List.forall₂_iff_get.mpr ⟨equal.length_eq, fun i first second => ?_⟩)
    have member := List.get_mem xs ⟨i, first⟩
    have member' := order.aligned.perm.subset (List.get_mem zs ⟨i, second⟩)
    exact ih _ member (inside _ member) (below _ member) (below' _ member') (equal.get first second)

private theorem Matches.node_of_exchanged {f : FunctionSymbol} {patterns ps ts args : List Term}
    (order : Exchanged f ts args)
    (order' : Exchanged f ps patterns) (each : List.Forall₂ (Matches m) ps ts) :
    Matches m (.node f patterns) (.node f args) := by
  rcases order' with rfl | ⟨commutative, pair, rfl⟩
  · exact .node order each
  · have lengths : args.length = 2 := by
      rw [← order.aligned.perm.length_eq, ← each.length_eq, List.length_reverse, pair]
    refine @Matches.node m f patterns ts.reverse args ?_ (List.forall₂_reverse_iff.mp (by rwa [List.reverse_reverse]))
    rcases order with rfl | ⟨_, _, rfl⟩
    · exact .inr ⟨commutative, lengths, rfl⟩
    · exact .inl (List.reverse_reverse args)

private theorem Matches.of_rearranged (matches' : Matches m s u) (rearranged : Rearranged s t) : Matches m t u := by
  induction s generalizing t u with
  | var v =>
    cases rearranged
    exact matches'
  | const c =>
    cases rearranged
    exact matches'
  | node f xs ih =>
    cases rearranged with
    | @node _ _ zs ys order' alike =>
      cases matches' with
      | @node _ _ ts args order each =>
        exact .node_of_exchanged order order' (forall₂_join alike each fun x member _ _ rearranged matches' =>
          ih x member matches' rearranged)

/-- Matching takes the second pattern for the first: they differ in the order of pairs only, as they do
when they are equal and equality passes over nothing else in the first, and the pairs of the second
settle what comes after them. -/
structure Interchangeable (pattern pattern' : Term) : Prop where
  fits : Rearranged pattern pattern' ∨ pattern.everyNode isExchangeable = true ∧ pattern.everyNode isFlat = true ∧
    pattern'.everyNode isFlat = true
  settled : Settled [] [] pattern'

theorem Interchangeable.exists_match? {pattern' : Term} {σ : Substitution}
    (interchangeable : Interchangeable pattern pattern')
    (same : (pattern == pattern') = true) (matched : pattern.match? t = some σ) :
    ∃ σ', pattern'.match? t = some σ' := by
  obtain ⟨fits, settled⟩ := interchangeable
  have rearranged : Rearranged pattern pattern' := fits.elim id fun ⟨exchangeable, flat, flat'⟩ =>
    rearranged_of_equal exchangeable flat flat' (beq_iff_shape.mp same)
  exact exists_match?_of_matches settled ((matches_of_match? matched).of_rearranged rearranged)

/-- Whether the symbol is free, or commutative and applied to two arguments. -/
def isPlainNode (f : FunctionSymbol) (args : List Term) : Bool :=
  f.theory == .free || f.theory == .commutative && args.length == 2

private theorem isExchangeable_of_isPlainNode {f : FunctionSymbol} {args : List Term}
    (plain : isPlainNode f args = true) :
    isExchangeable f args = true := by
  simp only [isPlainNode, Bool.or_eq_true, beq_iff_eq] at plain
  rcases plain with free | pair
  · simp [isExchangeable, free, SymbolTheory.isCommutative]
  · simp [isExchangeable, pair]

private theorem laws_of_isPlainNode {f : FunctionSymbol} {args : List Term} (plain : isPlainNode f args = true) :
    f.theory ≠ .idempotent ∧ f.theory.isAssociative = false := by
  simp only [isPlainNode, Bool.or_eq_true, Bool.and_eq_true, beq_iff_eq] at plain
  rcases plain with free | ⟨commutative, _⟩
  · simp [free, SymbolTheory.isAssociative]
  · simp [commutative, SymbolTheory.isAssociative]

private theorem isReduced_of_isPlainNode {f : FunctionSymbol} {args : List Term} (plain : isPlainNode f args = true) :
    isReduced f args = true :=
  isReduced_iff.mpr (by simp [laws_of_isPlainNode plain])

/-- Over free symbols and commutative pairs a pattern whose instance is a term matches the term. -/
theorem matches_of_instance (plain : pattern.everyNode isPlainNode = true) (sorted : ∀ v, (m v).sort = v.sort)
    (equal : (pattern.instantiate m).shape = t.shape) : Matches m pattern t := by
  induction pattern generalizing t with
  | var v => exact .var (by rw [← sort_shape t, ← equal, sort_shape, instantiate, sorted]) equal
  | const c =>
    cases t with
    | const d =>
      cases equal
      exact .const c
    | var w | node g args => cases equal
  | node f patterns ih =>
    obtain ⟨root, inside⟩ := everyNode_node.mp plain
    obtain ⟨kept, plain⟩ := laws_of_isPlainNode root
    rw [instantiate_node, shape_app kept] at equal
    obtain ⟨args, rfl⟩ := exists_of_shape_eq equal
    have aligned := (shape_node_eq_iff.mp equal).2
    rw [shapes_of_not_associative plain, shapes_of_not_associative plain] at aligned
    have exchangeable : isExchangeable f (patterns.map (instantiate m)) = true := by
      simpa only [isExchangeable, List.length_map] using isExchangeable_of_isPlainNode root
    obtain ⟨ts, order, each⟩ := exists_exchanged exchangeable aligned
    have matches' : ∀ p ∈ patterns, ∀ {t : Term}, (p.instantiate m).shape = t.shape → Matches m p t := fun p member =>
      ih p member (inside p member)
    have below := (List.forall₂_and_left _ _).mpr ⟨matches', List.forall₂_map_left_iff.mp each⟩
    exact .node order (below.imp fun _ _ both => both.1 both.2)

/-- Over free symbols and commutative pairs matching finds a match where there is one, if the pattern
has no pair whose arguments can be matched in two ways that give different values to variables after the
pair. -/
theorem matching_complete {σ : Substitution} (plain : pattern.everyNode isPlainNode = true)
    (settled : Settled [] [] pattern) (sorted : σ.SortPreserving) (equal : (σ.apply pattern == t) = true) :
    ∃ θ, pattern.match? t = some θ := by
  rw [beq_iff_shape, σ.shape_apply (everyNode_mono (fun _ _ => isReduced_of_isPlainNode) plain)] at equal
  exact exists_match?_of_matches settled (matches_of_instance plain sorted.image equal)

/-- The pairs share their variables, and each of them leaves one value to the variable that it shares
with the next. The orders in which the term has their arguments are such that the first one that is
tried fails in each. -/
theorem matching_complete_chain :
    let x : Variable := ⟨⟨0⟩, .default⟩
    let y : Variable := ⟨⟨1⟩, .default⟩
    let z : Variable := ⟨⟨2⟩, .default⟩
    let a : Term := .const ⟨⟨0⟩, .default⟩
    let b : Term := .const ⟨⟨1⟩, .default⟩
    let pair : FunctionSymbol := ⟨⟨0⟩, 2, .commutative, .default, .default⟩
    let h : FunctionSymbol := ⟨⟨1⟩, 3, .free, .default, .default⟩
    let pattern : Term := .node h [.node pair [a, .var x], .node pair [.var x, .var y], .node pair [.var y, .var z]]
    let t : Term := .node h [.node pair [b, a], .node pair [a, b], .node pair [.node pair [b, .var x], a]]
    let σ : Substitution := ⟨[(x, b), (y, a), (z, .node pair [.var x, b])], by decide⟩
    pattern.everyNode isPlainNode = true ∧ Settled [] [] pattern ∧ σ.SortPreserving ∧ (σ.apply pattern == t) = true ∧
      ∃ θ, pattern.match? t = some θ := by
  intro x y z a b pair h pattern t σ
  have plain : pattern.everyNode isPlainNode = true := by decide
  have settled : Settled [] [] pattern := by
    refine ⟨nofun, ⟨fun _ _ => ?first, trivial, trivial, trivial⟩, ⟨fun _ _ => ?second, trivial, trivial, trivial⟩,
      ⟨fun _ _ => ?third, trivial, trivial, trivial⟩, trivial⟩
    case first => exact settles_pair (.swap ..) (by simp [a, vars])
    case second => exact settles_pair (.swap ..) (by simp [vars, varsList])
    case third => exact settles_of_bound (by simp [varsList])
  have sorted : σ.SortPreserving := by decide
  have equal : (σ.apply pattern == t) = true := by decide
  exact ⟨plain, settled, sorted, equal, matching_complete plain settled sorted equal⟩

/-- The pair is matched in its own order, which gives `x` the value of `y`; when `x` comes again, the
other order is not tried. -/
theorem matching_commits :
    let x : Variable := ⟨⟨0⟩, .default⟩
    let y : Variable := ⟨⟨1⟩, .default⟩
    let a : Term := .const ⟨⟨0⟩, .default⟩
    let b : Term := .const ⟨⟨1⟩, .default⟩
    let pair : FunctionSymbol := ⟨⟨0⟩, 2, .commutative, .default, .default⟩
    let h : FunctionSymbol := ⟨⟨1⟩, 2, .free, .default, .default⟩
    let pattern : Term := .node h [.node pair [.var x, .var y], .var x]
    let t : Term := .node h [.node pair [a, b], b]
    let σ : Substitution := ⟨[(x, b), (y, a)], by decide⟩
    pattern.everyNode isPlainNode = true ∧ t.everyNode isPlainNode = true ∧ σ.SortPreserving ∧
      (σ.apply pattern == t) = true ∧
      pattern.match? t = none := by
  decide

end Equational.Term
