import Equational.Proofs.ExpAC.Extension
import Equational.Proofs.ExpAC.Invariant
import Equational.Proofs.ExpAC.Purification

/-! Runs on problems without powers and pairs. Of the rules only the elimination of variables and the
decomposition of free applications ever apply, and there are no alternatives to try. Neither rule
changes what a state says, up to the order of arguments, so every state of a run says what the
problem says, and a run that fails short of a limit has found that nothing satisfies it. -/

namespace Equational

namespace ExpAC

open Search State

variable {setting : Setting} {signature : Signature} {known : FunctionSymbol → Prop} {P : Term → Prop}
  {problem : Problem}
  {interner : Interner} {state next : State} {session : Session} {m : Variable → Term} {n start : Nat} {t : Term}

/-- A property of terms over known symbols, none of which is a power or a pair. Symbols beside the
combiner are free, and applications are larger than their arguments. -/
structure Powerless (signature : Signature) (known : FunctionSymbol → Prop) (P : Term → Prop) :
    Prop extends Term.Nameable P where
  consistent : Consistent known
  symbols : ∀ h, known h → h.id ≠ signature.exp.id ∧ h.id ≠ signature.g.id
  free : ∀ {h : FunctionSymbol} {args : List Term}, P (.node h args) → signature.isReserved h.id = false →
    h.theory = .free
  grows : ∀ {h : FunctionSymbol} {args flat : List Term}, P (.node h args) → flat.length = args.length →
    (∀ arg ∈ flat, P arg) →
    ∀ arg ∈ flat, arg.shape.size < (Term.app h flat).shape.size

theorem powerless_isFree (consistent : Consistent known)
    (unreserved : ∀ h, known h → signature.isReserved h.id = false) :
    Powerless signature known Term.IsFree where
  toNameable := Term.nameable_isFree
  consistent := consistent
  symbols h listed := by
    have other := unreserved h listed
    simp only [Signature.isReserved, Bool.or_eq_false_iff, beq_eq_false_iff_ne] at other
    exact other.1
  free holds _ := (Term.over_node.mp holds).1
  grows holds _ _ arg member := by
    have root := (Term.over_node.mp holds).1
    rw [Term.app_of_free root, Term.shape_node_of_free root]
    exact Term.size_lt_of_mem (List.mem_map_of_mem member)

def Unsolvable (P : Term → Prop) (problem : Problem) : Prop :=
  ∀ m, Term.Suits P m → ¬ ∀ e ∈ problem.equations, e.Holds m

section States

variable (powerless : Powerless signature known P)
include powerless

private theorem Powerless.partsOf_eq_none (spelled : t.Over known) :
    signature.expParts t = none ∧ signature.gParts t = none := by
  have absent {symbol : FunctionSymbol} (other : ∀ h, known h → h.id ≠ symbol.id) :
      Signature.partsOf symbol t = none := by
    by_contra some
    obtain ⟨⟨s, u⟩, found⟩ := Option.ne_none_iff_exists'.mp some
    obtain ⟨h, rfl, same⟩ := exists_of_partsOf found
    exact other h (Term.over_node.mp spelled).1 same
  exact ⟨absent fun h listed => (powerless.symbols h listed).1, absent fun h listed => (powerless.symbols h listed).2⟩

variable (proper : state.Proper known n)
include proper

private theorem Powerless.parts_eq_none {e : Equation} (listed : e ∈ state.definitions.equations) :
    signature.expParts e.rhs = none ∧ signature.gParts e.rhs = none :=
  powerless.partsOf_eq_none (proper.definitions e listed).2.formed.spelled

private theorem Powerless.parts_of_mem_pairs {e₁ e₂ : Equation} (listed : (e₁, e₂) ∈ state.pairs) :
    (signature.expParts e₁.rhs = none ∧ signature.gParts e₁.rhs = none) ∧
      signature.expParts e₂.rhs = none ∧ signature.gParts e₂.rhs = none := by
  have inside := (mem_pairsOf listed).1.subset
  exact ⟨powerless.parts_eq_none proper (inside (by simp)), powerless.parts_eq_none proper (inside (by simp))⟩

private theorem Powerless.powerPairs_eq_nil : state.powerPairs signature = [] := by
  refine List.eq_nil_iff_forall_not_mem.mpr fun p member => ?_
  obtain ⟨listed, first, _⟩ := of_mem_powerPairs member
  have absent := (powerless.parts_of_mem_pairs proper listed).1.1
  rw [first] at absent
  cases absent

omit powerless proper in
private theorem idle_mergePowers (absent : state.powerPairs signature = []) (shared : Part) :
    Search.ofExcept (state.mergePowers signature shared) = pure none := by
  rcases mergePowers_cases signature state shared with ⟨idle, _⟩ | ⟨p, member, _⟩
  · exact congrArg Search.ofExcept idle
  · simp [absent] at member

private theorem Powerless.idle (rule : Rule) (other : rule ≠ .eliminate ∧ rule ≠ .decompose) :
    state.Idle signature rule := by
  have none := powerless.powerPairs_eq_nil proper
  cases rule with
  | eliminate => exact absurd rfl other.1
  | decompose => exact absurd rfl other.2
  | sameBase => exact idle_mergePowers none .base
  | sameExponent => exact idle_mergePowers none .exponent
  | mergePairs =>
    rcases mergePairs_cases signature state with ⟨idle, _⟩ | ⟨e₁, e₂, u₁, v₁, u₂, v₂, listed, found, _⟩
    · exact congrArg Search.ofExcept idle
    · cases (powerless.parts_of_mem_pairs proper listed).1.2.symm.trans found
  | distribute =>
    rcases distribute_cases signature state with ⟨idle, _⟩ | ⟨power, pair, s, t, u, v, listed, found, _⟩
    · exact idle
    · rcases listed with listed | listed
      · cases (powerless.parts_of_mem_pairs proper listed).1.1.symm.trans found
      · cases (powerless.parts_of_mem_pairs proper listed).2.1.symm.trans found
  | compose =>
    rcases composeExponents_cases signature state with idle | ⟨outer, listed, inner, _, y, s, t₁, t₂, _, found, _⟩
    · exact idle
    · cases (powerless.parts_eq_none proper listed).1.symm.trans found

private theorem Powerless.alternatives_eq_none : state.alternatives signature = pure none := by
  rcases alternatives_cases signature state with ⟨none, _⟩ | ⟨p, member, _⟩
  · exact none
  · simp [powerless.powerPairs_eq_nil proper] at member

variable (neat : state.Neat P n)
include neat

omit proper in
private theorem Powerless.same_arguments_iff {e₁ e₂ : Equation} {h : FunctionSymbol} {xs ys : List Term}
    (listed : (e₁, e₂) ∈ state.pairs)
    (root₁ : e₁.rhs = .node h xs) (root₂ : e₂.rhs = .node h ys) (other : signature.isReserved h.id = false) :
    Term.Same (e₁.rhs.instantiate m) (e₂.rhs.instantiate m) ↔
      List.Forall₂ (fun x y => Term.Same (x.instantiate m) (y.instantiate m)) xs ys := by
  have inside := (mem_pairsOf listed).1.subset
  have free := powerless.free (root₁ ▸ (neat.definitions e₁ (inside (by simp))).right) other
  rw [root₁, root₂, Term.Same, Term.instantiate_free free, Term.instantiate_free free, Term.node.injEq]
  rw [← List.forall₂_eq_eq_eq, List.forall₂_map_left_iff, List.forall₂_map_right_iff]
  exact and_iff_right rfl

private theorem Powerless.agrees_decompose (applied : state.decompose signature = .ok (some next)) :
    Agrees Term.Same known P n state next := by
  rcases decompose_cases signature state with ⟨none, _⟩ | ⟨e₁, e₂, h₁, xs, h₂, ys, listed, root₁, root₂, ids,
    other, step⟩
  · rw [none] at applied
    cases applied
  · obtain rfl := root_eq_of_mem_pairs proper powerless.consistent listed root₁ root₂ ids
    have inside := (mem_pairsOf listed).1.subset
    obtain ⟨_, fits₁⟩ := proper.definitions e₁ (inside (by simp))
    obtain ⟨_, fits₂⟩ := proper.definitions e₂ (inside (by simp))
    have leaves₁ := (neat.definitions e₁ (inside (by simp))).leaves powerless.toStable root₁
    have leaves₂ := (neat.definitions e₂ (inside (by simp))).leaves powerless.toStable root₂
    rw [root₁] at fits₁
    rw [root₂] at fits₂
    rw [step] at applied
    split at applied
    · cases applied
    next lengths =>
      obtain ⟨added, oriented, result⟩ := exists_of_bind_eq_ok applied
      cases result
      have added_iff (m : Variable → Term) :=
        (holdsIn_orientAll_iff (m := m) Term.congruence_same (by simpa using lengths) oriented).trans
        (powerless.same_arguments_iff neat listed root₁ root₂ other).symm
      refine ⟨proper_revise proper (Nat.le_refl n) _ (everySide_orientAll fits₁.argument fits₂.argument oriented),
        neat.revise (Nat.le_refl n) _ (isNaming_orientAll leaves₁ leaves₂ oriented), fun m => ⟨?_, fun holds => ?_⟩⟩
      · exact holdsIn_of_drop Term.congruence_same listed (.inr rfl) (added_iff m).mp
      · refine (holdsIn_revise_iff Term.congruence_same).mpr
          ⟨fun e kept => holds.definitions e (mem_of_mem_foldl_erase kept),
          (added_iff m).mpr (holds.of_mem_pairs Term.congruence_same listed), holds.solved⟩

variable (suits : Term.Suits P m) (holds : state.HoldsIn Term.Same m)
include suits holds

omit suits in
private theorem Powerless.exists_decompose : ∃ result, state.decompose signature = .ok result := by
  rcases decompose_cases signature state with ⟨none, _⟩ | ⟨e₁, e₂, h₁, xs, h₂, ys, listed, root₁, root₂, ids,
    other, step⟩
  · exact ⟨_, none⟩
  · obtain rfl := root_eq_of_mem_pairs proper powerless.consistent listed root₁ root₂ ids
    have inside := (mem_pairsOf listed).1.subset
    have leaves₁ := (neat.definitions e₁ (inside (by simp))).leaves powerless.toStable root₁
    have leaves₂ := (neat.definitions e₂ (inside (by simp))).leaves powerless.toStable root₂
    have same := (powerless.same_arguments_iff neat listed root₁ root₂ other).mp
      (holds.of_mem_pairs Term.congruence_same listed)
    obtain ⟨added, oriented⟩ := exists_orientAll (fun x member => (leaves₁ x member).1)
      (fun y member => (leaves₂ y member).1) (same.imp fun x y equal c d constant constant' => by
      subst constant constant'
      exact Term.const.inj equal)
    rw [step, if_neg (by simp [same.length_eq]), oriented]
    exact ⟨_, rfl⟩

omit powerless proper in
private theorem State.Neat.exists_eliminate : ∃ result, state.eliminate = .ok result := by
  refine State.exists_eliminate fun e listed x y left right => ?_
  have naming := neat.definitions e listed
  have equal : (m x).shape = (m y).shape := by
    have definition := holds.definitions e listed
    rwa [Equation.HoldsIn, left, right] at definition
  rw [← (suits x (left ▸ naming.left)).2, ← (suits y (right ▸ naming.right)).2, ← Term.sort_shape, ← equal,
    Term.sort_shape]

omit proper suits in
private theorem Powerless.compatible {e₁ e₂ : Equation} (listed : (e₁, e₂) ∈ state.pairs) :
    checkCompatible signature e₁.rhs e₂.rhs = .ok () := by
  have inside := (mem_pairsOf listed).1.subset
  have left := (neat.definitions e₁ (inside (by simp))).right
  have right := (neat.definitions e₂ (inside (by simp))).right
  have equal := holds.of_mem_pairs Term.congruence_same listed
  have head {h : FunctionSymbol} {args : List Term} (kept : P (.node h args)) :
      ((Term.node h args).instantiate m).head? = some h := by
    rw [Term.instantiate_node, ← Term.head?_shape, Term.shape_app (powerless.kept kept), Term.head?_shape]
    rfl
  have heads : (e₁.rhs.instantiate m).head? = (e₂.rhs.instantiate m).head? := by
    rw [← Term.head?_shape, equal, Term.head?_shape]
  generalize e₁.rhs = s at left equal heads
  generalize e₂.rhs = t at right equal heads
  cases s with
  | var v => cases t <;> rfl
  | const c =>
    cases t with
    | var v => rfl
    | const d => simp [checkCompatible, Term.const.inj equal]
    | node h args => cases heads.trans (head right)
  | node h₁ xs =>
    cases t with
    | var v => rfl
    | const c => cases heads.symm.trans (head left)
    | node h₂ ys =>
      have same : h₁ = h₂ := Option.some.inj ((head left).symm.trans (heads.trans (head right)))
      simp [checkCompatible, same]

omit proper in
private theorem Powerless.acyclic : state.checkAcyclic = .ok () := by
  refine checkAcyclic_of_rank (fun v => (m v).shape.size) fun e listed x left application u used => ?_
  have naming := neat.definitions e listed
  have definition := holds.definitions e listed
  rw [Equation.HoldsIn, left, Term.instantiate] at definition
  change (m u).shape.size < (m x).shape.size
  rw [definition]
  have right := naming.right
  have shallow := naming.shallow
  generalize e.rhs = t at used application right shallow
  cases t with
  | var v => cases application
  | const c => simp [Term.vars] at used
  | node h args =>
    obtain ⟨arg, member, occurs⟩ := Term.mem_varsList.mp used
    have leaf : arg = .var u := by
      cases arg with
      | var w => simpa [Term.vars, eq_comm] using occurs
      | const c => simp [Term.vars] at occurs
      | node g inner => cases shallow _ member
    subst leaf
    have values : ∀ value ∈ args.map (Term.instantiate m), P value := by
      intro value among
      obtain ⟨origin, inside, rfl⟩ := List.mem_map.mp among
      exact (powerless.toNameable.instantiate suits (powerless.argument right origin inside)).1
    rw [Term.instantiate_node]
    exact powerless.grows right (List.length_map ..) values _ (List.mem_map_of_mem (f := Term.instantiate m) member)

end States

section Steps

variable (powerless : Powerless signature known P) (proper : state.Proper known session.names)
  (neat : state.Neat P session.names)
include powerless proper neat

/-- A rule changes nothing but the form of a state, and it fails only where nothing satisfies the state. -/
theorem Powerless.ends_apply (rule : Rule) : (state.apply signature rule).Ends session
    (fun result after => ∀ next, result = some next → Agrees Term.Same known P after.names state next)
    (fun _ => ∀ m, Term.Suits P m → ¬ state.HoldsIn Term.Same m) := by
  have failing {outcome : Except Failure (Option State)} {failure : Failure} (failed : outcome = .error failure)
      (succeeds : ∀ m, Term.Suits P m → state.HoldsIn Term.Same m → ∃ result, outcome = .ok result) :
      ∀ m, Term.Suits P m → ¬ state.HoldsIn Term.Same m := by
    intro m suits holds
    obtain ⟨result, ok⟩ := succeeds m suits holds
    cases failed.symm.trans ok
  by_cases eliminates : rule = .eliminate
  · subst eliminates
    refine ends_ofExcept (fun result applied next same => ?_) fun failure failed =>
      failing failed fun m suits holds => ?_
    · exact agrees_eliminate Term.congruence_same powerless.toNameable.flattenable proper neat (same ▸ applied)
    · exact neat.exists_eliminate suits holds
  by_cases decomposes : rule = .decompose
  · subst decomposes
    refine ends_ofExcept (fun result applied next same => ?_) fun failure failed =>
      failing failed fun m suits holds => ?_
    · exact powerless.agrees_decompose proper neat (same ▸ applied)
    · exact powerless.exists_decompose proper neat holds
  · rw [powerless.idle proper rule ⟨eliminates, decomposes⟩]
    exact ends_pure nofun

end Steps

/-- The state is in order, and it says what the problem says, up to the values of names drawn since. -/
structure Represents (known : FunctionSymbol → Prop) (P : Term → Prop) (problem : Problem) (start n : Nat)
    (state : State) : Prop where
  proper : state.Proper known n
  neat : state.Neat P n
  sound : ∀ m, state.HoldsIn Term.Same m → ∀ e ∈ problem.equations, e.Holds m
  complete : ∀ m, Term.Suits P m → (∀ e ∈ problem.equations, e.Holds m) →
    ∃ m', Term.Suits P m' ∧ Extends start m m' ∧ state.HoldsIn Term.Same m'
  older : start ≤ n

theorem Represents.unsolvable (represents : Represents known P problem start n state)
    (none : ∀ m, Term.Suits P m → ¬ state.HoldsIn Term.Same m) : Unsolvable P problem := by
  intro m suits solves
  obtain ⟨m', suits', _, holds⟩ := represents.complete m suits solves
  exact none m' suits' holds

section Runs

variable (powerless : Powerless setting.signature known P)
include powerless

/-- Every state of a run represents the problem, and a failure short of a limit means that nothing satisfies it. -/
theorem Powerless.invariant (problem : Problem) (start : Nat) : Invariant setting
    (fun state session => Represents known P problem start session.names state)
    (fun failure => failure.IsLimit ∨ Unsolvable P problem) where
  later represents grown :=
    { represents with
      proper := represents.proper.mono grown
      neat := represents.neat.mono grown
      older := Nat.le_trans represents.older grown }
  rule {state session} represents _ rule := by
    refine (powerless.ends_apply represents.proper represents.neat rule).mono ?_ fun _ none =>
      .inr (represents.unsolvable none)
    intro result after grown agrees next same
    have agrees := agrees next same
    refine ⟨agrees.proper, agrees.neat, fun m holds => represents.sound m ((agrees.holds m).mp holds),
      fun m suits solves => ?_, Nat.le_trans represents.older grown⟩
    obtain ⟨m', suits', extended, holds⟩ := represents.complete m suits solves
    exact ⟨m', suits', extended, (agrees.holds m').mpr holds⟩
  validation {state session failure} represents failed := by
    by_cases solvable : ∃ m, Term.Suits P m ∧ state.HoldsIn Term.Same m
    · obtain ⟨m, suits, holds⟩ := solvable
      exact .inl (isLimit_of_validate
        (fun _ _ listed => powerless.compatible represents.neat holds listed)
        (powerless.acyclic represents.neat suits holds) failed)
    · exact .inr (represents.unsolvable fun m suits holds => solvable ⟨m, suits, holds⟩)
  limit limit := .inl limit

omit powerless in
private theorem ends_purify_represents (nameable : Term.Nameable P) (terms : EverySide P problem.equations)
    (given : EverySide (Given known session.names) problem.equations) : (purify problem).Ends session
      (fun state after => Represents known P problem session.names after.names state)
        (fun _ => Unsolvable P problem) := by
  have extends' {m : Variable → Term} (suits : Term.Suits P m) (solves : ∀ e ∈ problem.equations, e.Holds m) :=
    ends_purify_extends Term.congruence_same nameable terms given suits solves fun e member => by
      rw [← (nameable.instantiate suits (terms e member).1).2, ← (nameable.instantiate suits (terms e member).2).2,
        ← Term.sort_shape, solves e member, Term.sort_shape]
  have formed := (ends_purify_neat nameable.flattenable terms).and (ends_purify_in Term.congruence_same given)
  have complete := Ends.forall (ι := { m // Term.Suits P m ∧ ∀ e ∈ problem.equations, e.Holds m })
    (formed.mono (fun _ _ _ _ => trivial) fun _ _ => trivial) fun m => extends' m.2.1 m.2.2
  refine (formed.and complete).mono ?_ ?_
  · rintro state after grown ⟨⟨neat, proper, sound⟩, complete⟩
    exact ⟨proper, neat, sound, fun m suits solves => complete ⟨m, suits, solves⟩, grown⟩
  · rintro failure ⟨_, impossible⟩ m suits solves
    exact impossible ⟨m, suits, solves⟩

variable {Q : List Substitution → Session → Prop}
  (closes : ∀ {state : State} {session : Session}, Represents known P problem start session.names state →
    state.Idle setting.signature .eliminate →
    (close setting state).Ends session Q (fun failure => failure.IsLimit ∨ Unsolvable P problem))
include closes

/-- There is one path only, and it ends in closing a state that represents the problem. -/
theorem Powerless.ends_branch (represents : Represents known P problem start session.names state) (fuel : Nat) :
    (branch setting fuel state).Ends session Q (fun failure => failure.IsLimit ∨ Unsolvable P problem) := by
  have inv := powerless.invariant problem start
  cases fuel with
  | zero => exact ends_throw (.inl ⟨_, rfl⟩)
  | succ fuel =>
    refine Ends.bind (inv.ends_settle represents _) ?_
    intro settled during _ settles
    rw [powerless.alternatives_eq_none settles.holds.proper, pure_bind]
    refine (inv.ends_exhaust settles.holds [.eliminate]).bind ?_
    intro last after _ saturates
    exact closes saturates.holds (saturates.idle _ (List.mem_singleton_self _))

theorem Powerless.ends_solve (terms : EverySide P problem.equations)
    (given : EverySide (Given known session.names) problem.equations) (same : start = session.names) :
    (solve setting problem).Ends session Q (fun failure => failure.IsLimit ∨ Unsolvable P problem) := by
  subst same
  refine ((ends_purify_represents powerless.toNameable terms given).mono (fun _ _ _ holds => holds) fun _ none =>
    .inr none).bind ?_
  intro flat during _ represents
  refine Ends.bind ((powerless.invariant problem session.names).ends_prepare represents) ?_
  intro prepared after _ represents'
  exact powerless.ends_branch closes represents' _

end Runs

end ExpAC

end Equational
