import Equational.Proofs.Substitution
import Equational.Term.Position
import Equational.Unification.Matching

/-! One-way matching. A match binds variables of the pattern to subterms of the term that have their
sorts, so whatever passes to arguments passes from the term to all that is bound. Under the bindings the
pattern is the term, argument by argument, which for a term in canonical shape makes the two equal. -/

namespace Equational.Term

variable {pattern t u : Term} {ts : List Term} {bindings extended : List (Variable × Term)} {vars : List Variable}

theorem of_subtermAt {P : Term → Prop} (argument : ∀ {f : FunctionSymbol} {args : List Term}, P (node f args) →
      ∀ arg ∈ args, P arg)
    {path : List Nat} (found : subtermAt path t = some u) (holds : P t) : P u := by
  induction path generalizing t with
  | nil =>
    cases found
    exact holds
  | cons i path ih =>
    obtain ⟨arg, inside, deeper⟩ := Option.bind_eq_some_iff.mp found
    have member := List.mem_of_getElem? inside
    cases t with
    | var v | const c => cases member
    | node f args => exact ih deeper (argument holds arg member)

/-- The binding is of one of the variables, to a subterm of one of the terms that has its sort. -/
structure Binds (vars : List Variable) (ts : List Term) (p : Variable × Term) : Prop where
  listed : p.1 ∈ vars
  sort : p.2.sort = p.1.sort
  subterm : ∃ t ∈ ts, ∃ path, t.subtermAt path = some p.2

namespace Binds

variable {p : Variable × Term}

private theorem mono {vars' : List Variable} {ts' : List Term} (binds : Binds vars ts p) (more : vars ⊆ vars')
    (within : ts ⊆ ts') :
    Binds vars' ts' p :=
  have ⟨t, member, found⟩ := binds.subterm
  ⟨more binds.listed, binds.sort, t, within member, found⟩

private theorem node {f : FunctionSymbol} {args : List Term} (binds : Binds vars args p) :
    Binds vars [.node f args] p := by
  obtain ⟨arg, member, path, found⟩ := binds.subterm
  obtain ⟨i, inside⟩ := List.mem_iff_getElem?.mp member
  refine ⟨binds.listed, binds.sort, _, List.mem_singleton_self _, i :: path, ?_⟩
  rw [subtermAt, arguments, inside]
  exact found

end Binds

/-- The arguments are compared in their order; only the two of a commutative symbol may change places. -/
def Exchanged (f : FunctionSymbol) (ts args : List Term) : Prop :=
  ts = args ∨ f.theory = .commutative ∧ args.length = 2 ∧ ts = args.reverse

theorem Exchanged.aligned {f : FunctionSymbol} {args : List Term} (order : Exchanged f ts args) :
    Aligned f ts args := by
  rcases order with rfl | ⟨commutative, _, rfl⟩
  · exact .refl f _
  · exact .of_perm (by rw [commutative]; rfl) (List.reverse_perm args)

section Inversion

private theorem of_matchInto_var {v : Variable} (matched : matchInto (.var v) t bindings = some extended) :
    t.sort = v.sort ∧
    ((∃ bound, (v, bound) ∈ bindings ∧ (bound == t) = true ∧ extended = bindings) ∨
      v ∉ bindings.map Prod.fst ∧ extended = bindings ++ [(v, t)]) := by
  simp only [matchInto, bne_iff_ne, ne_eq, ite_not] at matched
  split at matched
  next sorts =>
    refine ⟨sorts.symm, ?_⟩
    split at matched
    next bound found =>
      split at matched
      next same =>
        cases matched
        obtain ⟨before, after, split, _⟩ := List.lookup_eq_some_iff.mp found
        exact .inl ⟨bound, by simp [split], same, rfl⟩
      next => cases matched
    next unbound =>
      cases matched
      refine .inr ⟨fun member => ?_, rfl⟩
      obtain ⟨p, inside, rfl⟩ := List.mem_map.mp member
      exact absurd rfl (bne_iff_ne.mp (List.lookup_eq_none_iff.mp unbound p inside))
  next => cases matched

private theorem of_matchInto_const {c : Constant} (matched : matchInto (.const c) t bindings = some extended) :
    t = .const c ∧ extended = bindings := by
  cases t with
  | const d =>
    simp only [matchInto, beq_iff_eq] at matched
    split at matched
    next same =>
      cases matched
      exact ⟨congrArg const same.symm, rfl⟩
    next => cases matched
  | var v | node g args => cases matched

private theorem of_matchInto_node {f : FunctionSymbol} {patterns : List Term}
    (matched : matchInto (.node f patterns) t bindings = some extended) :
    ∃ args ts, t = .node f args ∧ Exchanged f ts args ∧
      patterns.length = ts.length ∧ matchList patterns ts bindings = some extended := by
  cases t with
  | node g args =>
    simp only [matchInto, Bool.or_eq_true, bne_iff_ne] at matched
    split at matched
    next => cases matched
    next both =>
      obtain ⟨symbols, lengths⟩ := not_or.mp both
      rw [ne_eq, not_not] at symbols lengths
      subst symbols
      split at matched
      next swaps =>
        obtain ⟨commutative, pair⟩ := Bool.and_eq_true_iff.mp swaps
        have many : args.length = 2 := lengths.symm.trans (eq_of_beq pair)
        split at matched
        next first =>
          cases matched
          exact ⟨args, args, rfl, .inl rfl, lengths, first⟩
        next =>
          exact ⟨args, args.reverse, rfl, .inr ⟨eq_of_beq commutative, many, rfl⟩,
            lengths.trans List.length_reverse.symm, matched⟩
      next => exact ⟨args, args, rfl, .inl rfl, lengths, matched⟩
  | var v | const c => cases matched

end Inversion

mutual

/-- Matching keeps the bindings that it is given, and what it adds binds variables of the pattern. -/
theorem matchInto_binds (pattern : Term) {t : Term} {bindings extended : List (Variable × Term)}
    (matched : matchInto pattern t bindings = some extended) :
    ∀ p ∈ extended, p ∈ bindings ∨ Binds pattern.vars [t] p :=
  match pattern with
  | var v => by
    obtain ⟨sort, ⟨_, _, _, rfl⟩ | ⟨_, rfl⟩⟩ := of_matchInto_var matched
    · exact fun p member => .inl member
    · refine fun p member => (List.mem_append.mp member).imp id fun new => ?_
      rw [List.mem_singleton.mp new]
      exact ⟨List.mem_singleton_self v, sort, t, List.mem_singleton_self t, [], rfl⟩
  | const c => by
    obtain ⟨_, rfl⟩ := of_matchInto_const matched
    exact fun p member => .inl member
  | node f patterns => by
    obtain ⟨args, ts, rfl, order, _, inside⟩ := of_matchInto_node matched
    refine fun p member => (matchList_binds patterns inside p member).imp id fun binds => ?_
    exact (binds.mono (List.Subset.refl _) order.aligned.perm.subset).node
termination_by structural pattern

theorem matchList_binds (patterns : List Term) {ts : List Term} {bindings extended : List (Variable × Term)}
    (matched : matchList patterns ts bindings = some extended) :
    ∀ p ∈ extended, p ∈ bindings ∨ Binds (varsList patterns) ts p :=
  match patterns with
  | [] => by
    cases matched
    exact fun p member => .inl member
  | pattern :: patterns => by
    cases ts with
    | nil =>
      cases matched
      exact fun p member => .inl member
    | cons t ts =>
      obtain ⟨middle, first, rest⟩ := Option.bind_eq_some_iff.mp matched
      have head := matchInto_binds pattern first
      have tail := matchList_binds patterns rest
      intro p member
      rcases tail p member with earlier | binds
      · exact (head p earlier).imp id fun binds => binds.mono (List.subset_append_left ..) (by simp)
      · exact .inr (binds.mono (List.subset_append_right ..) (List.subset_cons_self ..))
termination_by structural patterns

end

def Agrees (m : Variable → Term) (bindings : List (Variable × Term)) : Prop :=
  ∀ p ∈ bindings, (m p.1).shape = p.2.shape

/-- Under the assignment the pattern is the term, argument by argument; only the two arguments of a
commutative symbol may have changed places. -/
inductive Matches (m : Variable → Term) : Term → Term → Prop where
  | var {v : Variable} {t : Term} (sort : t.sort = v.sort) (value : (m v).shape = t.shape) : Matches m (.var v) t
  | const (c : Constant) : Matches m (.const c) (.const c)
  | node {f : FunctionSymbol} {patterns ts args : List Term} (order : Exchanged f ts args)
      (each : List.Forall₂ (Matches m) patterns ts) : Matches m (.node f patterns) (.node f args)

private theorem shape_instantiate_node {f : FunctionSymbol} {patterns args : List Term} {m : Variable → Term}
    (reduced : isReduced f args = true) (order : Aligned f ts args)
    (same : List.Forall₂ (fun s t => s.shape = t.shape) (patterns.map (instantiate m)) ts) :
    ((node f patterns).instantiate m).shape = (node f args).shape := by
  rw [instantiate_node, app_congr same, app_aligned order, shape_app_of_isReduced reduced]

/-- What a pattern matches is equal to its instance. The term must be canonical, since the instance is. -/
theorem Matches.shape_instantiate {m : Variable → Term} (matches' : Matches m pattern t)
    (canonical : t.isCanonical = true) :
    (pattern.instantiate m).shape = t.shape := by
  induction pattern generalizing t with
  | var v =>
    cases matches' with
    | var _ value => exact value
  | const c =>
    cases matches'
    rfl
  | node f patterns ih =>
    cases matches' with
    | @node _ _ ts args order each =>
      obtain ⟨reduced, inside⟩ := isCanonical_node.mp canonical
      refine shape_instantiate_node reduced order.aligned (List.forall₂_map_left_iff.mpr ?_)
      have canonical' : ∀ u ∈ ts, u.isCanonical = true := fun u member => inside u (order.aligned.perm.subset member)
      have below := (List.forall₂_and_left _ _).mpr ⟨ih, each⟩
      clear each order ih
      induction below with
      | nil => exact .nil
      | cons head _ rest =>
        obtain ⟨whole, others⟩ := List.forall_mem_cons.mp canonical'
        exact .cons (head.1 head.2 whole) (rest others)

private theorem Matches.shape_apply {σ : Substitution} (matches' : Matches σ.image pattern t)
    (patternCanonical : pattern.isCanonical = true)
    (canonical : t.isCanonical = true) : (σ.apply pattern).shape = t.shape := by
  rw [Substitution.shape_apply σ patternCanonical, matches'.shape_instantiate canonical]

/-- What a match adds to the bindings: earlier ones stay, no variable is bound twice, those of the
pattern are bound, and the assignments that agree with all of the bindings make of the pattern what it
was compared with. -/
structure Extends (vars : List Variable) (bindings extended : List (Variable × Term))
    (same : (Variable → Term) → Prop) : Prop where
  kept : bindings ⊆ extended
  distinct : (bindings.map Prod.fst).Nodup → (extended.map Prod.fst).Nodup
  bound : ∀ v ∈ vars, v ∈ extended.map Prod.fst
  sound : ∀ m, Agrees m extended → same m

mutual

theorem matchInto_extends (pattern : Term) {t : Term} {bindings extended : List (Variable × Term)}
    (matched : matchInto pattern t bindings = some extended) :
    Extends pattern.vars bindings extended (Matches · pattern t) :=
  match pattern with
  | var v => by
    obtain ⟨sort, ⟨bound, member, same, rfl⟩ | ⟨absent, rfl⟩⟩ := of_matchInto_var matched
    · refine ⟨List.Subset.refl _, id, ?_, fun m agrees => .var sort ((agrees _ member).trans (beq_iff_shape.mp same))⟩
      exact List.forall_mem_singleton.mpr (List.mem_map_of_mem member)
    · refine ⟨List.subset_append_left ..,
        fun distinct => ?_, by simp [vars], fun m agrees => .var sort (agrees (v, t) (by simp))⟩
      rw [List.map_append, List.map_singleton, List.nodup_append]
      refine ⟨distinct, List.nodup_singleton _, fun w earlier w' last same => ?_⟩
      rw [same, List.mem_singleton.mp last] at earlier
      exact absent earlier
  | const c => by
    obtain ⟨rfl, rfl⟩ := of_matchInto_const matched
    exact ⟨List.Subset.refl _, id, List.forall_mem_nil _, fun _ _ => .const c⟩
  | node f patterns => by
    obtain ⟨args, ts, rfl, order, lengths, inside⟩ := of_matchInto_node matched
    have below := matchList_extends patterns inside lengths
    exact ⟨below.kept, below.distinct, below.bound, fun m agrees => .node order (below.sound m agrees)⟩
termination_by structural pattern

theorem matchList_extends (patterns : List Term) {ts : List Term} {bindings extended : List (Variable × Term)}
    (matched : matchList patterns ts bindings = some extended) (lengths : patterns.length = ts.length) :
    Extends (varsList patterns) bindings extended fun m => List.Forall₂ (Matches m) patterns ts :=
  match patterns with
  | [] => by
    obtain rfl := List.length_eq_zero_iff.mp lengths.symm
    cases matched
    exact ⟨List.Subset.refl _, id, List.forall_mem_nil _, fun _ _ => .nil⟩
  | pattern :: patterns => by
    cases ts with
    | nil => cases lengths
    | cons t ts =>
      obtain ⟨middle, first, rest⟩ := Option.bind_eq_some_iff.mp matched
      have head := matchInto_extends pattern first
      have tail := matchList_extends patterns rest (Nat.succ.inj lengths)
      refine ⟨List.Subset.trans head.kept tail.kept, fun distinct => tail.distinct (head.distinct distinct), ?_,
        fun m agrees => ?_⟩
      · refine List.forall_mem_append.mpr ⟨fun v occurs => ?_, tail.bound⟩
        exact List.map_subset Prod.fst tail.kept (head.bound v occurs)
      · exact .cons (head.sound m fun p member => agrees p (tail.kept member)) (tail.sound m agrees)
termination_by structural patterns

end

def addAll (bindings : List (Variable × Term)) : Except Failure Substitution :=
  bindings.foldlM (fun σ p => σ.add p.1 p.2) .empty

private theorem match?_eq_some_iff {σ : Substitution} :
    pattern.match? t = some σ ↔ ∃ bindings, matchInto pattern t [] = some bindings ∧ addAll bindings = .ok σ := by
  simp only [match?, Option.bind_eq_bind, Option.bind_eq_some_iff]
  refine exists_congr fun bindings => and_congr_right fun _ => ?_
  change (addAll bindings).toOption = some σ ↔ addAll bindings = .ok σ
  cases addAll bindings <;> simp [Except.toOption]

private theorem mem_of_foldlM_add {σ σ' : Substitution}
    (added : bindings.foldlM (fun (σ : Substitution) p => σ.add p.1 p.2) σ = .ok σ') :
    ∀ p ∈ σ'.bindings, p ∈ σ.bindings ∨ p ∈ bindings := by
  induction bindings generalizing σ with
  | nil =>
    cases added
    exact fun p member => .inl member
  | cons q bindings ih =>
    obtain ⟨σ₁, first, rest⟩ := exists_of_bind_eq_ok added
    intro p member
    rcases ih rest p member with earlier | later
    · rcases Substitution.mem_bindings_of_add first earlier with old | ⟨variable', term⟩
      · exact .inl old
      · exact .inr (List.mem_cons.mpr (.inl (Prod.ext variable' term)))
    · exact .inr (List.mem_cons_of_mem q later)

private theorem exists_foldlM_add {σ : Substitution} (distinct : (bindings.map Prod.fst).Nodup)
    (free : ∀ p ∈ bindings, p.1 ∉ σ.domain) (sorted : ∀ p ∈ bindings, p.2.sort = p.1.sort) :
    ∃ σ', bindings.foldlM (fun (σ : Substitution) p => σ.add p.1 p.2) σ = .ok σ' ∧
    (∀ p ∈ bindings, σ'.image p.1 = p.2) ∧
      ∀ w, (∀ p ∈ bindings, p.1 ≠ w) → σ'.image w = σ.image w := by
  induction bindings generalizing σ with
  | nil => exact ⟨σ, rfl, fun p none => (List.not_mem_nil none).elim, fun _ _ => rfl⟩
  | cons q bindings ih =>
    obtain ⟨absent, distinct⟩ := List.nodup_cons.mp distinct
    obtain ⟨first, others⟩ := List.forall_mem_cons.mp free
    obtain ⟨sort, sorts⟩ := List.forall_mem_cons.mp sorted
    obtain ⟨σ₁, added, image, apart⟩ := Substitution.exists_add first sort
    have different : ∀ p ∈ bindings, p.1 ≠ q.1 := fun p member same => absent (same ▸ List.mem_map_of_mem member)
    have free₁ : ∀ p ∈ bindings, p.1 ∉ σ₁.domain := by
      intro p member bound
      obtain ⟨u, inside⟩ := Substitution.mem_domain_iff.mp bound
      rcases Substitution.mem_bindings_of_add added inside with old | ⟨same, _⟩
      · exact others p member (Substitution.mem_domain_iff.mpr ⟨u, old⟩)
      · exact different p member same
    obtain ⟨σ', rest, images, unchanged⟩ := ih distinct free₁ sorts
    refine ⟨σ', ?_, List.forall_mem_cons.mpr ⟨?_, images⟩, ?_⟩
    · rw [List.foldlM_cons, added]
      exact rest
    · rw [unchanged q.1 different, image]
    · intro w others
      obtain ⟨notFirst, notLater⟩ := List.forall_mem_cons.mp others
      rw [unchanged w notLater, apart w notFirst.symm]

section Collected

variable {order : List (Variable × Term)} {σ : Substitution} (matched : matchInto pattern t [] = some bindings)
  (same : order.Perm bindings)
include matched same

/-- The bindings that a match collects are never rejected in the end, in whatever order they are added,
and all of them hold. -/
theorem exists_addAll_image : ∃ σ, addAll order = .ok σ ∧ ∀ p ∈ bindings, σ.image p.1 = p.2 := by
  have extends' := matchInto_extends pattern matched
  have sorted : ∀ p ∈ order, p.2.sort = p.1.sort := fun p member =>
    ((matchInto_binds pattern matched p (same.mem_iff.mp member)).resolve_left List.not_mem_nil).sort
  have distinct : (order.map Prod.fst).Nodup := (same.map Prod.fst).nodup_iff.mpr (extends'.distinct List.nodup_nil)
  have free : ∀ p ∈ order, p.1 ∉ Substitution.empty.domain := fun _ _ => List.not_mem_nil
  obtain ⟨σ, added, images, _⟩ := exists_foldlM_add distinct free sorted
  exact ⟨σ, added, fun p member => images p (same.mem_iff.mpr member)⟩

private theorem exists_addAll : ∃ σ, addAll order = .ok σ ∧ Matches σ.image pattern t := by
  obtain ⟨σ, added, images⟩ := exists_addAll_image matched same
  exact ⟨σ, added, (matchInto_extends pattern matched).sound σ.image fun p member => congrArg shape (images p member)⟩

private theorem binds_of_addAll (added : addAll order = .ok σ) : ∀ p ∈ σ.bindings, Binds pattern.vars [t] p := by
  intro p member
  have inside := (mem_of_foldlM_add added p member).resolve_left List.not_mem_nil
  exact (matchInto_binds pattern matched p (same.mem_iff.mp inside)).resolve_left List.not_mem_nil

end Collected

theorem exists_match? (matched : matchInto pattern t [] = some bindings) :
    ∃ σ, pattern.match? t = some σ ∧ ∀ p ∈ bindings, σ.image p.1 = p.2 := by
  obtain ⟨σ, added, images⟩ := exists_addAll_image matched (List.Perm.refl _)
  exact ⟨σ, match?_eq_some_iff.mpr ⟨bindings, matched, added⟩, images⟩

section Match

variable {σ : Substitution} (matched : pattern.match? t = some σ)
include matched

private theorem binds_of_match? : ∀ p ∈ σ.bindings, Binds pattern.vars [t] p := by
  obtain ⟨bindings, found, added⟩ := match?_eq_some_iff.mp matched
  exact binds_of_addAll found (List.Perm.refl _) added

theorem matches_of_match? : Matches σ.image pattern t := by
  obtain ⟨bindings, found, added⟩ := match?_eq_some_iff.mp matched
  obtain ⟨σ', added', matches'⟩ := exists_addAll found (List.Perm.refl _)
  cases added.symm.trans added'
  exact matches'

/-- Applied to the pattern, a match gives the term. -/
theorem shape_apply_of_match? (patternCanonical : pattern.isCanonical = true) (canonical : t.isCanonical = true) :
    (σ.apply pattern).shape = t.shape :=
  (matches_of_match? matched).shape_apply patternCanonical canonical

theorem sortPreserving_of_match? : σ.SortPreserving :=
  fun p member => (binds_of_match? matched p member).sort

/-- Every variable of the pattern becomes a subterm of the term, whether a binding says so or a variable
stands for itself. -/
theorem exists_subterm_of_match? : ∀ v ∈ pattern.vars, ∃ path, t.subtermAt path = some (σ.image v) := by
  obtain ⟨bindings, found, _⟩ := match?_eq_some_iff.mp matched
  obtain ⟨σ', matched', images⟩ := exists_match? found
  cases matched.symm.trans matched'
  intro v occurs
  obtain ⟨p, member, rfl⟩ := List.mem_map.mp ((matchInto_extends pattern found).bound v occurs)
  rw [images p member]
  obtain ⟨u, whole, reached⟩ := ((matchInto_binds pattern found p member).resolve_left List.not_mem_nil).subterm
  cases List.mem_singleton.mp whole
  exact reached

end Match

theorem range_of_match? {P : Term → Prop} (argument : ∀ {f : FunctionSymbol} {args : List Term}, P (node f args) →
      ∀ arg ∈ args, P arg)
    {σ : Substitution} (matched : pattern.match? t = some σ) (holds : P t) : ∀ u ∈ σ.range, P u := by
  intro u member
  obtain ⟨v, bound⟩ := Substitution.exists_of_mem_range member
  obtain ⟨t', whole, path, found⟩ := (binds_of_match? matched _ bound).subterm
  obtain rfl := List.mem_singleton.mp whole
  exact of_subtermAt argument found holds

/-- What is expected of a match: applied to the pattern it gives the term, and it binds nothing but
variables of the pattern, to terms of their sorts. -/
structure IsMatch (pattern t : Term) (σ : Substitution) : Prop where
  equal : (σ.apply pattern == t) = true
  bound : ∀ v ∈ σ.domain, v ∈ pattern.vars
  sorted : σ.SortPreserving

private theorem isMatch_of_binds {σ : Substitution} (patternCanonical : pattern.isCanonical = true)
    (canonical : t.isCanonical = true)
    (matches' : Matches σ.image pattern t) (binds : ∀ p ∈ σ.bindings, Binds pattern.vars [t] p) :
    IsMatch pattern t σ where
  equal := beq_iff_shape.mpr (matches'.shape_apply patternCanonical canonical)
  bound v member := by
    obtain ⟨u, bound⟩ := Substitution.mem_domain_iff.mp member
    exact (binds _ bound).listed
  sorted p member := (binds p member).sort

/-- What is found is a match. Once the search has succeeded, the bindings that it collected are
accepted, in whatever order they are added, and give a match. -/
theorem matching_sound (patternCanonical : pattern.isCanonical = true) (canonical : t.isCanonical = true) :
    (∀ σ, pattern.match? t = some σ → IsMatch pattern t σ) ∧
    ∀ bindings, matchInto pattern t [] = some bindings → (∃ σ, pattern.match? t = some σ) ∧
      ∀ order : List (Variable × Term), order.Perm bindings → ∃ σ, addAll order = .ok σ ∧ IsMatch pattern t σ := by
  refine ⟨fun σ matched => ?_, fun bindings matched => ⟨(exists_match? matched).imp fun _ => And.left,
    fun order same => ?_⟩⟩
  · exact isMatch_of_binds patternCanonical canonical (matches_of_match? matched) (binds_of_match? matched)
  · obtain ⟨σ, added, matches'⟩ := exists_addAll matched same
    exact ⟨σ, added, isMatch_of_binds patternCanonical canonical matches' (binds_of_addAll matched same added)⟩

/-- Pattern and term share all their variables. The first order of the pair binds `x` before it fails,
the second binds it to a sum, which is met again with its parts the other way round; `z` stands for
itself. -/
theorem matching_sound_sharedVariables :
    let x : Variable := ⟨⟨0⟩, .default⟩
    let y : Variable := ⟨⟨1⟩, .default⟩
    let z : Variable := ⟨⟨2⟩, .default⟩
    let a : Term := .const ⟨⟨0⟩, .default⟩
    let sum : FunctionSymbol := ⟨⟨0⟩, 2, .associativeCommutative, .default, .default⟩
    let pair : FunctionSymbol := ⟨⟨1⟩, 2, .commutative, .default, .default⟩
    let h : FunctionSymbol := ⟨⟨2⟩, 4, .free, .default, .default⟩
    let pattern : Term := .node h [.node pair [.var x, a], .var x, .var y, .var z]
    let t : Term := .node h [.node pair [a, .node sum [.var y, a]], .node sum [a, .var y], .var x, .var z]
    let bindings : List (Variable × Term) := [(x, .node sum [.var y, a]), (y, .var x), (z, .var z)]
    pattern.isCanonical = true ∧ t.isCanonical = true ∧ matchInto pattern t [] = some bindings ∧
      (∃ σ, pattern.match? t = some σ ∧ IsMatch pattern t σ) ∧ ∃ σ, addAll bindings.reverse = .ok σ ∧
      IsMatch pattern t σ := by
  intro x y z a sum pair h pattern t bindings
  have patternCanonical : pattern.isCanonical = true := by decide
  have canonical : t.isCanonical = true := by decide
  have matched : matchInto pattern t [] = some bindings := rfl
  obtain ⟨sound, accepted⟩ := matching_sound patternCanonical canonical
  obtain ⟨⟨σ, found⟩, anyOrder⟩ := accepted bindings matched
  exact ⟨patternCanonical, canonical, matched, ⟨σ, found, sound σ found⟩, anyOrder _ (List.reverse_perm bindings)⟩

end Equational.Term
