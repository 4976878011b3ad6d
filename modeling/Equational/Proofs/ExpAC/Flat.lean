import Equational.Proofs.ExpAC.Reachability

/-! Flat states. Every definition gives a variable a term whose arguments are variables and constants, and a variable
that is eliminated occurs nowhere any more. This needs neither laws nor sorts: what a step works with is
variables and constants, a name that it draws is in no term yet, and where an application collapses it is
to one of its arguments. Beside it, a property of the terms that steps keep holds in every state of a run. -/

namespace Equational

/-- Neither a form that is not supported nor a second value for a variable. -/
def Failure.IsExpected : Failure → Prop
  | .unsupported _ | .conflictingBinding _ => False
  | _ => True

namespace Term

variable {s t : Term} {v : Variable}

private theorem var_beq_eq_false (absent : v ∉ t.vars) : (Term.var v == t) = false := by
  by_contra same
  rw [Bool.not_eq_false] at same
  obtain rfl := Substitution.eq_var_of_beq (BEq.symm same)
  exact absent (by simp [vars])

private theorem app_pair_of_ne (h : FunctionSymbol) (left : s.isSimple = true) (right : t.isSimple = true)
    (different : (s == t) = false) :
    app h [s, t] = node h [s, t] := by
  by_cases idempotent : h.theory = .idempotent
  · rw [app_pair idempotent, if_neg (by simp [different])]
  · exact app_of_isSimple idempotent (List.forall_mem_cons.mpr ⟨left, List.forall_mem_singleton.mpr right⟩)

end Term

namespace ExpAC

open Search State

variable {P : Term → Prop} {setting : Setting} {signature : Signature} {problem : Problem} {interner : Interner}
  {state next : State} {session : Session} {n n' : Nat} {s t : Term} {e : Equation} {failure : Failure}

/-- A property that the flat form keeps, of the names that a step draws and of what it puts under a
symbol of the laws. -/
structure Steady (signature : Signature) (P : Term → Prop) : Prop extends Term.Flattenable P where
  fresh : ∀ {v : Variable}, v.sort = signature.exp.domain ∨ v.sort = signature.g.domain ∨
    v.sort = signature.f.range → P (.var v)
  pair : ∀ {h : FunctionSymbol} {s t : Term}, h = signature.exp ∨ h = signature.g ∨ h = signature.f →
    s.isSimple = true →
    t.isSimple = true → P s → P t → P (.app h [s, t])

theorem steady_of_byArity (byArity : Term.ByArity P) : Steady signature P where
  toFlattenable := byArity.flattenable
  fresh _ := byArity.leaf rfl
  pair _ left right _ _ := byArity.appPair _ left right

theorem steady_true : Steady signature fun _ => True :=
  steady_of_byArity Term.byArity_true

private theorem steady_isRegular (sorted : signature.OneSorted) :
    Steady signature (·.isRegular signature.f = true) where
  toFlattenable := (Term.nameable_isRegular sorted.f).flattenable
  fresh sort := by
    rw [sorted.expDomain, sorted.gDomain, or_self, or_self] at sort
    exact Term.isRegular_var.mpr sort
  pair law left right holds holds' := (isFlat_pair sorted law ⟨left, holds⟩ ⟨right, holds'⟩).regular

namespace State

/-- Definitions of variables by shallow terms with a property, over variables that are in use and not eliminated. -/
structure Flat (P : Term → Prop) (n : Nat) (state : State) : Prop where
  proper : state.Proper (fun _ => True) n
  neat : state.Neat P n

private theorem Flat.mono (flat : state.Flat P n) (grown : n ≤ n') : state.Flat P n' :=
  ⟨flat.proper.mono grown, flat.neat.mono grown⟩

structure IsLeafOf (state : State) (n : Nat) (t : Term) : Prop where
  simple : t.isSimple = true
  fits : t.Fits (fun _ => True) (state.Usable n)

section Steps

variable (flat : state.Flat P n)
include flat

private theorem Material.isLeafOf (grown : n ≤ n') (material : Material signature state n n' t) :
    state.IsLeafOf n' t := by
  cases material with
  | @argument e _ _ _ listed root member =>
    have shallow := (flat.neat.definitions e listed).shallow
    have fits := (flat.proper.definitions e listed).2
    rw [root] at shallow fits
    exact ⟨shallow t member, (fits.argument t member).mono fun _ usable => usable.mono grown⟩
  | fresh drawn => exact ⟨rfl, .var (flat.proper.usable_fresh drawn.older drawn.newer)⟩

private theorem Paired.different (paired : Paired signature state n n' s t) : (s == t) = false := by
  have apart {v : Variable} {u : Term} (name : n ≤ v.id.index) (other : Material signature state n v.id.index u) :
      v ∉ u.vars :=
    fun occurs => Nat.lt_irrefl _ ((other.isLeafOf flat name).fits.vars v occurs).1
  cases paired with
  | left drawn other => exact Term.var_beq_eq_false (apart drawn.older other)
  | right drawn other =>
    rw [BEq.comm]
    exact Term.var_beq_eq_false (apart drawn.older other)

variable (steady : Steady signature P)

section Definitions

include steady

private theorem Material.passes (material : Material signature state n n' t) : P t := by
  cases material with
  | @argument e _ _ _ listed root member =>
    exact steady.argument (root ▸ (flat.neat.definitions e listed).right) t member
  | fresh drawn => exact steady.fresh drawn.sort

private theorem Made.isNaming (grown : n ≤ n') (made : Made signature state n n' e) : IsNaming P e := by
  have named {s : Term} (definable : Definable signature state n n' s) : s.isVariable = true ∧ P s := by
    cases definable with
    | defined listed => exact ⟨(flat.neat.definitions _ listed).named, (flat.neat.definitions _ listed).left⟩
    | var material => exact ⟨rfl, material.passes flat steady⟩
  cases made with
  | leaf left right =>
    have simple := (right.isLeafOf flat grown).simple
    exact ⟨(named left).1, (named left).2, Term.isShallow_of_isSimple simple, right.passes flat steady⟩
  | @pair h _ _ _ law left first second =>
    have simple₁ := (first.isLeafOf flat grown).simple
    have simple₂ := (second.isLeafOf flat grown).simple
    exact ⟨(named left).1, (named left).2,
      Term.isShallow_app h (List.forall_mem_cons.mpr ⟨simple₁, List.forall_mem_singleton.mpr simple₂⟩),
      steady.pair law simple₁ simple₂ (first.passes flat steady) (second.passes flat steady)⟩

end Definitions

private theorem Made.fits (grown : n ≤ n') (made : Made signature state n n' e) :
    e.lhs.Fits (fun _ => True) (state.Usable n') ∧ e.rhs.Fits (fun _ => True) (state.Usable n') := by
  have definable {s : Term} (definable : Definable signature state n n' s) :
      s.Fits (fun _ => True) (state.Usable n') := by
    cases definable with
    | defined listed => exact (flat.proper.definitions _ listed).1.mono fun _ usable => usable.mono grown
    | var material => exact (material.isLeafOf flat grown).fits
  cases made with
  | leaf left right => exact ⟨definable left, (right.isLeafOf flat grown).fits⟩
  | pair _ left first second =>
    exact ⟨definable left, .pair trivial (first.isLeafOf flat grown).fits (second.isLeafOf flat grown).fits⟩

include steady

private theorem Revised.keepsFlat (grown : n ≤ n') (revised : Revised signature state n n' next) :
    next.Flat P n' := by
  obtain ⟨remove, add, rfl, made⟩ := revised
  exact ⟨proper_revise flat.proper grown remove fun e member => (made e member).fits flat grown,
    flat.neat.revise grown remove fun e member => (made e member).isNaming flat steady grown⟩

private theorem Flat.eliminate (applied : state.eliminate = .ok (some next)) : next.Flat P n := by
  have agrees := agrees_eliminate Term.congruence_same steady.toFlattenable flat.proper flat.neat applied
  exact ⟨agrees.proper, agrees.neat⟩

omit steady

private theorem Stuck.isExpected (stuck : Stuck signature state n failure) : failure.IsExpected := by
  -- The material may be of a step that draws no name, or many.
  have simple {m : Nat} {t : Term} (material : Material signature state n m t) : t.isSimple = true :=
    ((material.mono (Nat.le_refl n) (Nat.le_max_right n m)).isLeafOf flat (Nat.le_max_left n m)).simple
  cases stuck with
  | @orient _ s t _ left right failed =>
    have left' := simple left
    have right' := simple right
    simp only [ExpAC.orient] at failed
    split at failed
    · cases failed
    · split at failed <;> cases failed
      · trivial
      · cases s <;> cases t <;> simp_all [Term.isSimple]
  | @define m h s t u _ left arguments failed =>
    have left' := simple left
    obtain ⟨first, second⟩ := arguments.material
    rw [Term.app_pair_of_ne h (simple first) (simple second) (arguments.different flat)] at failed
    cases s with
    | var v => cases failed
    | const c =>
      cases failed
      trivial
    | node g args => cases left'
  | arity => trivial

omit flat in
private theorem isExpected_of_eliminate (failed : state.eliminate = .error failure) : failure.IsExpected := by
  rcases eliminate_cases state with ⟨none, _⟩ | ⟨e, _, x, y, _, _, step⟩
  · cases none.symm.trans failed
  · rcases exists_of_bind_eq_error (step.symm.trans failed) with unbound | ⟨_, _, impossible⟩
    · rcases exists_of_bind_eq_error unbound with sorts | ⟨_, _, impossible⟩
      · simp only [Substitution.checkSort] at sorts
        split at sorts <;> cases sorts
        trivial
      · cases impossible
    · cases impossible

end Steps

section Searches

variable (steady : Steady signature P) (flat : state.Flat P session.names)
include steady flat

/-- Every rule leads to a flat state, or it fails for a reason that lies in the definitions. -/
theorem ends_apply_flat (rule : Rule) : (state.apply signature rule).Ends session
    (fun result after => ∀ next, result = some next → next.Flat P after.names) Failure.IsExpected := by
  by_cases eliminates : rule = .eliminate
  · subst eliminates
    exact ends_ofExcept (fun result applied next same => flat.eliminate steady (same ▸ applied)) fun _ =>
      isExpected_of_eliminate
  · exact (ends_apply_revised eliminates).mono
      (fun _ _ grown revised next same => (revised next same).keepsFlat flat steady grown)
      fun _ stuck => stuck.isExpected flat

/-- So does every alternative. -/
theorem ends_alternatives_flat : (state.alternatives signature).Ends session
    (fun result after => ∀ alternatives, result = some alternatives →
      ∀ alternative ∈ alternatives, alternative.Gives (Flat P after.names) Failure.IsExpected) (fun _ => False) :=
  ends_alternatives_revised.mono (fun _ _ grown revised alternatives same alternative member =>
    (revised alternatives same alternative member).mono (fun _ revised => revised.keepsFlat flat steady grown)
      fun _ stuck => stuck.isExpected flat) fun _ failed => failed

end Searches

end State

section Runs

variable (interned : ∀ v ∈ problem.vars, v.id.index < interner.variableCount) (sides : EverySide P problem.equations)
include interned sides

theorem ends_purify_flat (flattenable : Term.Flattenable P) (stem : String) :
    (purify problem).Ends { interner, fresh := { stem } }
    (fun state after => state.Flat P after.names) Failure.IsExpected := by
  let begun : Session := { interner, fresh := { stem } }
  have given : EverySide (Given (fun _ => True) begun.names) problem.equations :=
    given_of_interned (fun _ _ => trivial) interned
  refine ((ends_purify_in Term.congruence_same given).and (ends_purify_neat flattenable sides)).mono
    (fun _ _ _ both => ⟨both.1.1, both.2⟩) ?_
  rintro failure ⟨_, _, _, rfl⟩
  trivial

/-- Every state of a run is flat. -/
theorem Reached.flat (steady : Steady setting.signature P)
    (reached : Reached setting problem interner state session) :
    state.Flat P session.names := by
  induction reached with
  | start purified => exact (ends_purify_flat interned sides steady.toFlattenable _).of_ok purified
  | rule _ _ applied ih => exact (ends_apply_flat steady ih _).of_ok applied _ rfl
  | alternative _ listed member ih => exact (ends_alternatives_flat steady ih).of_ok listed _ rfl _ member
  | later _ grown ih => exact ih.mono grown

end Runs

/-- A state of a run is tidy, so an assignment under which it holds solves it. -/
theorem Reached.solvedBy (posed : Posed setting.signature problem interner)
    (reached : Reached setting problem interner state session)
    {m : Variable → Term} (regular : RegularOn setting.signature m) (holds : state.Holds setting.signature m) :
    state.SolvedBy setting.signature session.names m :=
  ⟨tidy_iff_neat.mpr (reached.flat posed.interned posed.regular (steady_isRegular posed.sorted)).neat, holds, regular⟩

end ExpAC

end Equational
