import Equational.Proofs.ExpAC.State
import Equational.Proofs.Search

/-! The flat form of a problem implies the problem. Every name stands for a nested application
wherever its definition holds, so putting names back gives equivalent terms. -/

namespace Equational.ExpAC

open Search

variable {E : Term → Term → Prop} {known : FunctionSymbol → Prop} {session : Session} {fails : Failure → Prop}

abbrev InUse (n : Nat) (v : Variable) : Prop :=
  v.id.index < n

abbrev Stated (known : FunctionSymbol → Prop) (n : Nat) : Term → Prop :=
  Term.Fits known (InUse n)

theorem Stated.later {n n' : Nat} {t : Term} (stated : Stated known n t) (grown : n ≤ n') : Stated known n' t := by
  refine stated.mono ?_
  intro v below
  omega

/-- Over known symbols and variables in use, in whatever shape. -/
structure Given (known : FunctionSymbol → Prop) (n : Nat) (t : Term) : Prop where
  spelled : t.Over known
  vars : ∀ v ∈ t.vars, InUse n v

theorem Stated.given {n : Nat} {t : Term} (stated : Stated known n t) : Given known n t :=
  ⟨stated.formed.spelled, stated.vars⟩

namespace Given

variable {n n' : Nat} {t : Term} {h : FunctionSymbol} {args : List Term}

theorem later (given : Given known n t) (grown : n ≤ n') : Given known n' t :=
  ⟨given.spelled, fun v occurs => Nat.lt_of_lt_of_le (given.vars v occurs) grown⟩

theorem argument (given : Given known n (.node h args)) : ∀ arg ∈ args, Given known n arg := fun arg member =>
  ⟨(Term.over_node.mp given.spelled).2 arg member,
    fun v occurs => given.vars v (Term.mem_varsList.mpr ⟨arg, member, occurs⟩)⟩

theorem stated (given : Given known n t) (canonical : t.isCanonical = true) : Stated known n t :=
  ⟨⟨canonical, given.spelled⟩, given.vars⟩

end Given

/-- The sides of a problem are over its symbols, and over variables that the interner knows. -/
theorem given_of_interned {problem : Problem} {count : Nat}
    (listed : ∀ f ∈ problem.equations.flatMap Equation.symbols, known f)
    (interned : ∀ v ∈ problem.vars, v.id.index < count) : EverySide (Given known count) problem.equations := by
  have spelled : EverySide (Term.Over known) problem.equations := everySide_over_symbols listed
  intro e member
  have each (v : Variable) (occurs : v ∈ e.vars) : v.id.index < count :=
    interned v (List.mem_eraseDups.mpr (List.mem_flatMap.mpr ⟨e, member, occurs⟩))
  exact ⟨⟨(spelled e member).1, fun v occurs => each v (List.mem_append_left _ occurs)⟩,
    ⟨(spelled e member).2, fun v occurs => each v (List.mem_append_right _ occurs)⟩⟩

theorem everySide_later {n n' : Nat} {equations : List Equation} (sides : EverySide (Given known n) equations)
    (grown : n ≤ n') :
    EverySide (Given known n') equations :=
  sides.imp fun given => given.later grown

theorem everySide_mono {n n' : Nat} {equations : List Equation} (sides : EverySide (Stated known n) equations)
    (grown : n ≤ n') :
    EverySide (Stated known n') equations := by
  intro e member
  exact ⟨Stated.later (sides e member).1 grown, Stated.later (sides e member).2 grown⟩

/-- What flattening terms adds to the definitions given before. -/
structure Flattened (E : Term → Term → Prop) (known : FunctionSymbol → Prop) (n : Nat) (before : Problem)
    (terms flat : List Term) (after : Problem) : Prop where
  stated : ∀ t ∈ flat, Stated known n t
  definitions : EverySide (Stated known n) after.equations
  holds : ∀ m, (∀ d ∈ after.equations, d.HoldsIn E m) → (∀ d ∈ before.equations, d.HoldsIn E m) ∧
    List.Forall₂ (fun s t => E (s.instantiate m) (t.instantiate m)) terms flat

section Congruence

variable (congruence : Term.Congruence E)
include congruence

omit congruence in
theorem Flattened.nil {n : Nat} {out : Problem} (definitions : EverySide (Stated known n) out.equations) :
    Flattened E known n out [] [] out :=
  ⟨by simp, definitions, fun _ holds => ⟨holds, .nil⟩⟩

/-- A term that is flat already stays. -/
theorem Flattened.keep {n : Nat} {before after : Problem} {t : Term} {terms flat : List Term}
    (stated : Stated known n t)
    (rest : Flattened E known n before terms flat after) :
    Flattened E known n before (t :: terms) (t :: flat) after where
  stated := List.forall_mem_cons.mpr ⟨stated, rest.stated⟩
  definitions := rest.definitions
  holds m holds := by
    obtain ⟨earlier, equal⟩ := rest.holds m holds
    exact ⟨earlier, .cons (congruence.refl _) equal⟩

/-- A nested application gives way to a name for its flat form. -/
theorem Flattened.name {n n' : Nat} {before middle after : Problem} {t flat : Term} {v : Variable}
    {terms flats : List Term}
    (first : Flattened E known n before [t] [flat] middle) (inUse : InUse n' v)
    (rest : Flattened E known n' (middle.insert ⟨.var v, flat⟩) terms flats after) :
    Flattened E known n' before (t :: terms) (.var v :: flats) after where
  stated := List.forall_mem_cons.mpr ⟨.var inUse, rest.stated⟩
  definitions := rest.definitions
  holds m holds := by
    obtain ⟨defined, equal⟩ := rest.holds m holds
    obtain ⟨earlier, value⟩ := (Problem.holdsIn_insert_iff congruence).mp defined
    obtain ⟨old, same⟩ := first.holds m earlier
    rw [List.forall₂_cons] at same
    exact ⟨old, .cons (congruence.trans same.1 (congruence.symm value)) equal⟩

/-- An application of flat arguments is flat. -/
theorem Flattened.app {n : Nat} {before after : Problem} {h : FunctionSymbol} {args flat : List Term} (root : known h)
    (inside : Flattened E known n before args flat after) :
    Flattened E known n before [.node h args] [.app h flat] after where
  stated := List.forall_mem_singleton.mpr (.app root inside.stated)
  definitions := inside.definitions
  holds m holds := by
    obtain ⟨old, equal⟩ := inside.holds m holds
    refine ⟨old, .cons ?_ .nil⟩
    rw [Term.instantiate_node]
    exact congruence.trans (congruence.app_map equal)
      (congruence.symm (congruence.of_shape (Term.instantiate_app m h flat)))

end Congruence

section Searches

private theorem ends_freshInUse (sort : SortId) :
    (freshVariable sort).Ends session (fun v after => InUse after.names v) fails := by
  refine ends_freshVariable sort ?_
  intro after names
  simp only [InUse, names]
  omega

variable (congruence : Term.Congruence E)
include congruence

mutual

private theorem ends_flatten (t : Term) (out : Problem) (session : Session) (given : Given known session.names t)
    (definitions : EverySide (Stated known session.names) out.equations) : (flatten t out).Ends session
      (fun result after => Flattened E known after.names out [t] [result.1] result.2) fails :=
  match t with
  | .var v => ends_pure (.keep congruence (given.stated rfl) (.nil definitions))
  | .const c => ends_pure (.keep congruence (given.stated rfl) (.nil definitions))
  | .node h args => by
    have inside := ends_flattenArguments args out session given.argument definitions
    simp only [flatten]
    refine inside.bind ?_
    intro result after _ flattened
    exact ends_pure (flattened.app congruence (Term.over_node.mp given.spelled).1)
termination_by structural t

theorem ends_flattenArguments (args : List Term) (out : Problem) (session : Session)
    (given : ∀ arg ∈ args, Given known session.names arg)
    (definitions : EverySide (Stated known session.names) out.equations) : (flattenArguments args out).Ends session
      (fun result after => Flattened E known after.names out args result.1 result.2) fails :=
  match args with
  | [] => ends_pure (.nil definitions)
  | .var v :: args => by
    have later := ends_flattenArguments args out session
      (fun arg member => given arg (List.mem_cons_of_mem _ member)) definitions
    rw [flattenArguments]
    · refine later.bind ?_
      intro result after grown flattened
      exact ends_pure (flattened.keep congruence (Stated.later ((given _ (List.mem_cons_self ..)).stated rfl) grown))
    · simp
  | .const c :: args => by
    have later := ends_flattenArguments args out session
      (fun arg member => given arg (List.mem_cons_of_mem _ member)) definitions
    rw [flattenArguments]
    · refine later.bind ?_
      intro result after grown flattened
      exact ends_pure (flattened.keep congruence (Stated.later ((given _ (List.mem_cons_self ..)).stated rfl) grown))
    · simp
  | .node h inner :: args => by
    have whole := ends_flatten (.node h inner) out session (given _ (List.mem_cons_self ..)) definitions
    have later := fun out session => ends_flattenArguments args out session
    simp only [flattenArguments]
    refine whole.bind ?_
    intro result middle grown flattened
    refine (ends_freshInUse h.range).bind ?_
    intro v drawn grown₁ inUse
    have given' : ∀ arg ∈ args, Given known drawn.names arg := by
      intro arg member
      exact (given arg (List.mem_cons_of_mem _ member)).later (by omega)
    have rhs : Stated known drawn.names result.1 :=
      Stated.later (flattened.stated _ (List.mem_singleton_self _)) grown₁
    have definitions' := everySide_insert (e := ⟨.var v, result.1⟩) (everySide_mono flattened.definitions grown₁)
      (.var inUse) rhs
    refine (later (result.2.insert ⟨.var v, result.1⟩) drawn given' definitions').bind ?_
    intro rest after grown₂ flattened'
    exact ends_pure (flattened.name congruence (by omega) flattened')
termination_by structural args

end

/-- The definitions after flattening equations, with what they imply. -/
structure Implies (E : Term → Term → Prop) (known : FunctionSymbol → Prop) (n : Nat) (before : Problem)
    (equations : List Equation) (after : Problem) : Prop where
  definitions : EverySide (Stated known n) after.equations
  holds : ∀ m, (∀ d ∈ after.equations, d.HoldsIn E m) →
    (∀ d ∈ before.equations, d.HoldsIn E m) ∧ ∀ e ∈ equations, e.HoldsIn E m

private theorem ends_flattenEquation_define {x : Variable} {t : Term} {e : Equation} {out : Problem}
    (sides : e = ⟨.var x, t⟩ ∨ e = ⟨t, .var x⟩) (inUse : InUse session.names x) (given : Given known session.names t)
    (definitions : EverySide (Stated known session.names) out.equations) :
    (flattenEquation.define out x t).Ends session
      (fun result after => Implies E known after.names out [e] result) fails := by
  simp only [flattenEquation.define]
  refine (ends_flatten congruence t out session given definitions).bind ?_
  intro result after grown flattened
  have flat := flattened.stated _ (List.mem_singleton_self _)
  refine ends_pure ⟨everySide_insert flattened.definitions (.var (by omega)) flat, ?_⟩
  intro m holds
  obtain ⟨earlier, value⟩ := (Problem.holdsIn_insert_iff congruence).mp holds
  obtain ⟨old, same⟩ := flattened.holds m earlier
  rw [List.forall₂_cons] at same
  refine ⟨old, List.forall_mem_singleton.mpr ?_⟩
  rcases sides with rfl | rfl
  · exact congruence.trans value (congruence.symm same.1)
  · exact congruence.trans same.1 (congruence.symm value)

private theorem ends_flattenBoth {s t : Term} {out : Problem} (left : Given known session.names s)
    (right : Given known session.names t)
    (definitions : EverySide (Stated known session.names) out.equations) :
    Ends (do
      let v ← freshVariable s.sort
      let (left, out) ← flatten s out
      let (right, out) ← flatten t out
      return (out.insert ⟨.var v, left⟩).insert ⟨.var v, right⟩) session
      (fun result after => Implies E known after.names out [⟨s, t⟩] result) fails := by
  refine (ends_freshInUse s.sort).bind ?_
  intro v start grown inUse
  refine (ends_flatten congruence s out start (left.later grown) (everySide_mono definitions grown)).bind ?_
  intro first middle grown₁ flattened₁
  refine (ends_flatten congruence t first.2 middle (right.later (by omega)) flattened₁.definitions).bind ?_
  intro second after grown₂ flattened₂
  have name : Stated known after.names (.var v) := .var (Nat.lt_of_lt_of_le inUse (by omega))
  have flat₁ := Stated.later (flattened₁.stated _ (List.mem_singleton_self _)) grown₂
  have flat₂ := flattened₂.stated _ (List.mem_singleton_self _)
  refine ends_pure ⟨everySide_insert (everySide_insert flattened₂.definitions name flat₁) name flat₂, ?_⟩
  intro m holds
  obtain ⟨holds', value₂⟩ := (Problem.holdsIn_insert_iff congruence).mp holds
  obtain ⟨earlier₂, value₁⟩ := (Problem.holdsIn_insert_iff congruence).mp holds'
  obtain ⟨earlier₁, same₂⟩ := flattened₂.holds m earlier₂
  obtain ⟨old, same₁⟩ := flattened₁.holds m earlier₁
  rw [List.forall₂_cons] at same₁ same₂
  have left := congruence.trans same₁.1 (congruence.symm value₁)
  have right := congruence.trans value₂ (congruence.symm same₂.1)
  exact ⟨old, List.forall_mem_singleton.mpr (congruence.trans left right)⟩

private theorem ends_flattenEquation {e : Equation} {out : Problem} (left : Given known session.names e.lhs)
    (right : Given known session.names e.rhs) (definitions : EverySide (Stated known session.names) out.equations) :
    (flattenEquation e out).Ends session (fun result after => Implies E known after.names out [e] result)
      (fun _ => True) := by
  obtain ⟨s, t⟩ := e
  simp only [flattenEquation]
  by_cases sorts : (s.sort != t.sort) = true
  · simp only [sorts]
    exact ends_throw_bind trivial
  · simp only [sorts, Bool.false_eq_true, ↓reduceIte]
    split
    next _ x =>
      exact ends_flattenEquation_define congruence (.inl rfl) (left.vars x (by simp [Term.vars])) right definitions
    next s x _ =>
      exact ends_flattenEquation_define congruence (.inr rfl) (right.vars x (by simp [Term.vars])) left definitions
    next s t _ _ => exact ends_flattenBoth congruence left right definitions

private theorem ends_flattenEquations {equations : List Equation} {out : Problem}
    (given : EverySide (Given known session.names) equations)
    (definitions : EverySide (Stated known session.names) out.equations) :
    (equations.foldlM (fun out e => flattenEquation e out) out).Ends session
      (fun result after => Implies E known after.names out equations result) (fun _ => True) := by
  induction equations generalizing out session with
  | nil => exact ends_pure ⟨definitions, fun m holds => ⟨holds, by simp⟩⟩
  | cons e equations ih =>
    rw [List.foldlM_cons]
    obtain ⟨first, rest⟩ := List.forall_mem_cons.mp given
    refine (ends_flattenEquation congruence first.1 first.2 definitions).bind ?_
    intro middle after grown implies
    refine (ih (everySide_later rest grown) implies.definitions).mono ?_ fun _ _ => trivial
    intro result last _ implies'
    refine ⟨implies'.definitions, ?_⟩
    intro m holds
    obtain ⟨earlier, later⟩ := implies'.holds m holds
    obtain ⟨old, new⟩ := implies.holds m earlier
    exact ⟨old, List.forall_mem_cons.mpr ⟨new e (List.mem_singleton_self e), later⟩⟩

/-- The flat form is a state in order, and it holds only where the problem does. -/
theorem ends_purify_in {problem : Problem} (given : EverySide (Given known session.names) problem.equations) :
    (purify problem).Ends session (fun state after => state.Proper known after.names ∧
      ∀ m, state.HoldsIn E m → ∀ e ∈ problem.equations, e.HoldsIn E m) (fun _ => True) := by
  simp only [purify]
  refine (ends_flattenEquations congruence (everySide_filter given _) everySide_nil).bind ?_
  intro flat after _ implies
  refine ends_pure ⟨⟨?_, ?_, ?_⟩, ?_⟩
  · intro e member
    have weaker (v : Variable) (below : InUse after.names v) :
        State.Usable { definitions := ⟨flat.equations.filter (!·.isTrivial)⟩ } after.names v :=
      ⟨below, by simp [Substitution.empty, Substitution.domain]⟩
    have sides := implies.definitions e (List.mem_of_mem_filter member)
    exact ⟨sides.1.mono weaker, sides.2.mono weaker⟩
  · simp [Substitution.empty, Substitution.range]
  · simp [Substitution.empty, Substitution.domain]
  · intro m holds e member
    have defined : ∀ d ∈ flat.equations, d.HoldsIn E m := by
      intro d inside
      cases trivial : d.isTrivial with
      | true => exact Equation.holdsIn_of_isTrivial congruence trivial
      | false => exact holds.definitions d (List.mem_filter.mpr ⟨inside, by simp [trivial]⟩)
    cases trivial : e.isTrivial with
    | true => exact Equation.holdsIn_of_isTrivial congruence trivial
    | false => exact (implies.holds m defined).2 e (List.mem_filter.mpr ⟨member, by simp [trivial]⟩)

omit congruence in
theorem ends_purify (signature : Signature) {problem : Problem}
    (given : EverySide (Given known session.names) problem.equations) :
    (purify problem).Ends session (fun state after => state.Proper known after.names ∧
      ∀ m, state.Holds signature m → ∀ e ∈ problem.equations, e.HoldsModulo signature m) (fun _ => True) :=
  (ends_purify_in (EqualModulo.congruence signature) given).mono
    (fun _ _ _ purified => ⟨purified.1, fun m holds => purified.2 m (State.holds_iff_holdsIn.mp holds)⟩)
    fun _ _ => trivial

end Searches

end Equational.ExpAC
