import Equational.Proofs.ExpAC.Flat

/-! Saturation neither gains nor loses solutions. A rule changes which variables there are, so the
solutions before and after it are compared on the variables of the state before. Where a rule or
validation fails, there is nothing to compare, because the state has no solution. -/

namespace Equational

def Substitution.IsRegular (f : FunctionSymbol) (σ : Substitution) : Prop :=
  ∀ t ∈ σ.range, t.isRegular f = true

instance {f : FunctionSymbol} {σ : Substitution} : Decidable (σ.IsRegular f) :=
  inferInstanceAs (Decidable (∀ t ∈ σ.range, t.isRegular f = true))

theorem Substitution.isRegular_empty (f : FunctionSymbol) : Substitution.empty.IsRegular f := by
  simp [Substitution.IsRegular, Substitution.empty, Substitution.range]

namespace ExpAC

open Search

variable {setting : Setting} {signature : Signature} {known : FunctionSymbol → Prop} {problem : Problem}
  {interner : Interner}
  {state next : State} {session after : Session} {m m' : Variable → Term} {n n' : Nat} {τ τ' : Substitution}

theorem RegularOn.of_isRegular (regular : τ.IsRegular signature.f) : RegularOn signature τ.image := by
  intro v sort
  rcases τ.image_mem_or v with bound | ⟨_, free⟩
  · exact regular _ (Substitution.mem_range_of_mem bound)
  · rw [free]
    exact Term.isRegular_var.mpr sort

namespace State

def vars (state : State) : List Variable :=
  state.definitions.equations.flatMap Equation.vars ++ state.solved.domain ++ state.solved.range.flatMap Term.vars

/-- The substitution makes the sides of every definition equal modulo the laws, and every eliminated
variable equal to what it was eliminated for. -/
structure Solution (signature : Signature) (state : State) (τ : Substitution) : Prop where
  definitions : ∀ e ∈ state.definitions.equations, EqualModulo signature (τ.apply e.lhs) (τ.apply e.rhs)
  solved : ∀ p ∈ state.solved.bindings, EqualModulo signature (τ.image p.1) (τ.apply p.2)

theorem Solution.of_definitions (unsolved : state.solved = .empty)
    (definitions : ∀ e ∈ state.definitions.equations, EqualModulo signature (τ.apply e.lhs) (τ.apply e.rhs)) :
    state.Solution signature τ :=
  ⟨definitions, by simp [unsolved, Substitution.empty]⟩

/-- Applying a substitution to terms in canonical shape gives the instances under its images. -/
theorem solution_iff_of_canonical (sides : EverySide (Term.isCanonical · = true) state.definitions.equations)
    (range : ∀ t ∈ state.solved.range, t.isCanonical = true) :
    state.Solution signature τ ↔ state.Holds signature τ.image := by
  have equal {t : Term} (canonical : t.isCanonical = true) :
      EqualModulo signature (τ.apply t) (t.instantiate τ.image) :=
    .of_shape (τ.shape_apply canonical)
  have side (e : Equation) (listed : e ∈ state.definitions.equations) :
      EqualModulo signature (τ.apply e.lhs) (e.lhs.instantiate τ.image) ∧
        EqualModulo signature (τ.apply e.rhs) (e.rhs.instantiate τ.image) :=
    ⟨equal (sides e listed).1, equal (sides e listed).2⟩
  have bound (p : Variable × Term) (listed : p ∈ state.solved.bindings) :
      EqualModulo signature (τ.apply p.2) (p.2.instantiate τ.image) :=
    equal (range p.2 (Substitution.mem_range_of_mem listed))
  constructor
  · intro solution
    refine ⟨fun e listed => ?_, fun v => ?_⟩
    · exact (side e listed).1.symm.trans ((solution.definitions e listed).trans (side e listed).2)
    · rcases state.solved.image_mem_or v with member | ⟨_, free⟩
      · exact (solution.solved _ member).trans (bound _ member)
      · rw [free]
        exact .refl _
  · intro holds
    refine ⟨fun e listed => ?_, fun p listed => ?_⟩
    · exact (side e listed).1.trans ((holds.definitions e listed).trans (side e listed).2.symm)
    · have value := holds.solved p.1
      rw [Substitution.image_of_mem listed] at value
      exact value.trans (bound p listed).symm

theorem solution_iff (proper : state.Proper known n) : state.Solution signature τ ↔ state.Holds signature τ.image :=
  solution_iff_of_canonical (proper.definitions.imp fun fits => fits.formed.canonical) fun t member =>
    (proper.range t member).canonical

/-- Whether a state holds depends on its own variables only. -/
theorem Holds.congr (holds : state.Holds signature m) (agree : ∀ v ∈ state.vars, m' v = m v) :
    state.Holds signature m' := by
  simp only [vars, List.mem_append] at agree
  have side {t : Term} (same : ∀ v ∈ t.vars, m' v = m v) :
      EqualModulo signature (t.instantiate m') (t.instantiate m) :=
    .instantiate fun v occurs => by
      rw [same v occurs]
      exact .refl _
  refine ⟨fun e listed => ?_, fun v => ?_⟩
  · have each (v : Variable) (occurs : v ∈ e.vars) : m' v = m v :=
      agree v (.inl (.inl (List.mem_flatMap.mpr ⟨e, listed, occurs⟩)))
    have left := side fun v occurs => each v (List.mem_append_left _ occurs)
    have right := side fun v occurs => each v (List.mem_append_right _ occurs)
    exact left.trans ((holds.definitions e listed).trans right.symm)
  · rcases state.solved.image_mem_or v with member | ⟨_, free⟩
    · have image := side fun w occurs =>
        agree w (.inr (List.mem_flatMap.mpr ⟨_, Substitution.mem_range_of_mem member, occurs⟩))
      rw [agree v (.inl (.inr (Substitution.mem_domain_iff.mpr ⟨_, member⟩)))]
      exact (holds.solved v).trans image.symm
    · rw [free]
      exact .refl _

/-- The variables of a state in order are in use, and those of a tidy state have one sort. -/
theorem vars_inUse (proper : state.Proper known n) (tidy : state.Tidy signature n) :
    ∀ v ∈ state.vars, v.id.index < n ∧ v.sort = signature.f.range := by
  intro v member
  simp only [vars, List.mem_append] at member
  rcases member with (stated | eliminated) | image
  · obtain ⟨e, listed, occurs⟩ := List.mem_flatMap.mp stated
    have definition := tidy.definitions e listed
    rcases List.mem_append.mp occurs with left | right
    · exact ⟨((proper.definitions e listed).1.vars v left).1, Term.sort_of_mem_vars definition.left left⟩
    · exact ⟨((proper.definitions e listed).2.vars v right).1, Term.sort_of_mem_vars definition.right.regular right⟩
  · obtain ⟨t, bound⟩ := Substitution.mem_domain_iff.mp eliminated
    exact ⟨proper.domain v eliminated, (tidy.bound _ bound).1⟩
  · obtain ⟨t, listed, occurs⟩ := List.mem_flatMap.mp image
    obtain ⟨w, bound⟩ := Substitution.exists_of_mem_range listed
    obtain ⟨y, same, usable⟩ := tidy.solved _ bound
    have sort := Term.sort_of_mem_vars (tidy.bound _ bound).2 occurs
    simp only at same
    rw [same, Term.vars, List.mem_singleton] at occurs
    exact ⟨occurs ▸ usable.1, sort⟩

/-- An inherited solution, as a substitution on the variables of the state and on others in use. -/
theorem exists_solution_of_inherits {scope : List Variable}
    (used : ∀ v ∈ scope, v.id.index < n ∧ v.sort = signature.f.range)
    (proper : next.Proper known n') (inherits : Inherits signature n τ.image n' next) :
    ∃ τ', τ'.IsRegular signature.f ∧ next.Solution signature τ' ∧ ∀ v ∈ scope, τ'.image v = τ.image v := by
  obtain ⟨m', solved, extended⟩ := inherits
  have image {v : Variable} (member : v ∈ scope ++ next.vars) :
      (Substitution.tabulate m' (scope ++ next.vars)).image v = m' v := Substitution.image_tabulate member
  have sort (v : Variable) (member : v ∈ scope ++ next.vars) : v.sort = signature.f.range := by
    rcases List.mem_append.mp member with before | later
    · exact (used v before).2
    · exact (vars_inUse proper solved.tidy v later).2
  refine ⟨.tabulate m' (scope ++ next.vars), ?_, ?_, fun v member => ?_⟩
  · intro t member
    obtain ⟨v, bound⟩ := Substitution.exists_of_mem_range member
    obtain ⟨w, listed, same⟩ := List.mem_map.mp bound
    cases same
    exact solved.regular v (sort v (List.mem_dedup.mp listed))
  · exact (solution_iff proper).mpr (solved.holds.congr fun v member => image (List.mem_append_right _ member))
  · rw [image (List.mem_append_left _ member)]
    exact extended v (used v member).1

section Rules

/-- As `Refines`, for assignments of regular terms. -/
structure RefinesRegular (signature : Signature) (known : FunctionSymbol → Prop) (n : Nat) (state next : State) :
    Prop where
  proper : next.Proper known n
  holds : ∀ m, RegularOn signature m → next.Holds signature m → state.Holds signature m

private theorem Refines.regular (refines : Refines signature known n state next) :
    RefinesRegular signature known n state next :=
  ⟨refines.proper, fun m _ holds => refines.holds m holds⟩

private theorem shape_of_partsOf {symbol : FunctionSymbol} {s s' t t' u u' : Term} (consistent : Consistent known)
    (root : known symbol)
    (free : symbol.theory = .free) (spelled : t.Over known) (spelled' : t'.Over known) (same : t.shape = t'.shape)
    (found : Signature.partsOf symbol t = some (s, u)) (found' : Signature.partsOf symbol t' = some (s', u')) :
    s.shape = s'.shape := by
  obtain ⟨h, rfl, ids⟩ := exists_of_partsOf found
  obtain ⟨h', rfl, ids'⟩ := exists_of_partsOf found'
  obtain rfl := consistent h symbol (Term.over_node.mp spelled).1 root ids
  obtain rfl := consistent h' h (Term.over_node.mp spelled').1 root ids'
  rw [Term.shape_node_of_free free, Term.shape_node_of_free free] at same
  simp only [List.map_cons, Term.node.injEq, List.cons.injEq] at same
  exact same.2.1

variable (sorted : signature.OneSorted) (within : signature.Within known) (proper : state.Proper known session.names)
include sorted within proper

private theorem ends_composeExponents_regular : (state.composeExponents signature).Ends session
    (fun result after => ∀ next, result = some next → RefinesRegular signature known after.names state next)
      (fun _ => True) := by
  rcases composeExponents_cases signature state with none | ⟨outer, listed, inner, listed', y, s, t₁, t₂, lhs, left,
    right, step⟩
  · rw [none]
    exact ends_pure nofun
  · have outerFits := (proper.definitions outer listed).2
    have innerFits := (proper.definitions inner listed').2
    have outerParts := parts_of_partsOf within.consistent within.exp outerFits left
    have innerParts := parts_of_partsOf within.consistent within.exp innerFits right
    rw [step]
    refine (ends_freshNamed signature.f.range).bind ?_
    rintro z after grown ⟨rfl, names⟩
    refine ends_pure fun next same => ?_
    cases same
    have usable : state.Usable after.names ⟨⟨session.names⟩, signature.f.range⟩ :=
      proper.usable_fresh (Nat.le_refl _) (by simp [names])
    cases itself : inner == outer with
    | false => exact (refines_fold within proper grown listed listed' itself lhs outerParts innerParts usable).regular
    | true =>
      refine ⟨proper_revise proper grown _ (fits_fold within proper grown listed outerParts innerParts usable),
        fun m regular holds => ?_⟩
      obtain ⟨sides, powers⟩ := Equation.beq_iff.mp itself
      have base := shape_of_partsOf within.consistent within.exp sorted.exp innerFits.formed.spelled
        outerFits.formed.spelled
        (Term.beq_iff_shape.mp powers) right left
      obtain ⟨_, added, _⟩ := (holdsIn_revise_iff (EqualModulo.congruence signature)).mp (holds_iff_holdsIn.mp holds)
      have combined := Equation.HoldsModulo.pair (added _ (List.mem_cons_self ..))
      have name : EqualModulo signature (m y) (outer.lhs.instantiate m) := by
        rw [lhs] at sides
        exact .of_shape (Term.instantiate_congr (Term.beq_iff_shape.mp sides) m)
      have itself : EqualModulo signature (m y) (signature.power (m y) (m ⟨⟨session.names⟩, signature.f.range⟩)) :=
        name.trans (combined.trans (.pair _ (.of_shape (Term.instantiate_congr base m)) (.refl _)))
      exact absurd itself (EqualModulo.ne_power_self sorted (regular _ rfl))

private theorem ends_apply_regular (rule : Rule) : (state.apply signature rule).Ends session
    (fun result after => ∀ next, result = some next → RefinesRegular signature known after.names state next)
      (fun _ => True) := by
  by_cases compose : rule = .compose
  · subst compose
    exact ends_composeExponents_regular sorted within proper
  · exact (ends_apply_of_ne within proper compose).mono (fun _ _ _ refines next same => (refines next same).regular)
      fun _ _ => trivial

end Rules

end State

section Saturation

variable (posed : Posed setting.signature problem interner) (reached : Reached setting problem interner state session)
include posed reached

theorem Reached.solvedBy_solution (regular : τ.IsRegular setting.signature.f)
    (solution : state.Solution setting.signature τ) :
    state.SolvedBy setting.signature session.names τ.image :=
  reached.solvedBy posed (.of_isRegular regular) ((State.solution_iff (reached.proper posed)).mp solution)

/-- A rule keeps the solutions by regular terms, on the variables of the state. -/
theorem Reached.apply_solution_iff {rule : Rule}
    (applied : state.apply setting.signature rule session = .ok (some next) after)
    (regular : τ.IsRegular setting.signature.f) : state.Solution setting.signature τ ↔
      ∃ τ', τ'.IsRegular setting.signature.f ∧ next.Solution setting.signature τ' ∧
      ∀ v ∈ state.vars, τ'.image v = τ.image v := by
  have proper := reached.proper posed
  have refines := (State.ends_apply_regular posed.sorted posed.within proper rule).of_ok applied next rfl
  constructor
  · intro solution
    have solved := reached.solvedBy_solution posed regular solution
    have inherits := (ends_apply_inherits posed.sorted posed.within proper solved rule).of_ok applied next rfl
    exact State.exists_solution_of_inherits (State.vars_inUse proper solved.tidy) refines.proper inherits
  · rintro ⟨τ', regular', solution, agree⟩
    have holds := refines.holds _ (.of_isRegular regular') ((State.solution_iff refines.proper).mp solution)
    exact (State.solution_iff proper).mpr (holds.congr fun v member => (agree v member).symm)

/-- Rules keep the solutions by regular terms, and where a rule or validation fails, other than at a
limit, there are none. -/
structure Exact (setting : Setting) (state : State) (session : Session) : Prop where
  rule : ∀ rule next after, state.apply setting.signature rule session = .ok (some next) after →
    ∀ τ : Substitution, τ.IsRegular setting.signature.f → (state.Solution setting.signature τ ↔
      ∃ τ' : Substitution, τ'.IsRegular setting.signature.f ∧ next.Solution setting.signature τ' ∧
        ∀ v ∈ state.vars, τ'.image v = τ.image v)
  failure : ∀ rule failure after, state.apply setting.signature rule session = .error failure after →
    ∀ τ : Substitution, τ.IsRegular setting.signature.f → ¬ state.Solution setting.signature τ
  validation : ∀ failure, state.validate setting.limits setting.signature = .error failure → ¬ failure.IsLimit →
    ∀ τ : Substitution, τ.IsRegular setting.signature.f → ¬ state.Solution setting.signature τ

/-- Saturation is exact in every state of a run. -/
theorem Reached.exact : Exact setting state session where
  rule _ _ _ applied _ regular := reached.apply_solution_iff posed applied regular
  failure rule _ _ failed _ regular solution :=
    (ends_apply_inherits posed.sorted posed.within (reached.proper posed)
      (reached.solvedBy_solution posed regular solution)
      rule).of_error failed
  validation _ failed other _ regular solution :=
    other (State.limitReached_of_validate posed.sorted (reached.solvedBy_solution posed regular solution) failed)

end Saturation

theorem Signature.oneSorted_binary : Signature.binary.OneSorted where
  exp := rfl
  g := rfl
  f := rfl
  apart := by decide
  expDomain := rfl
  expRange := rfl
  gDomain := rfl
  gRange := rfl
  fDomain := rfl

theorem Reached.exact_equalPowers :
    let setting : Setting := ⟨{}, .binary, Problem.equalPowers.vars⟩
    let interner : Interner := { Interner.empty with variableTable := ⟨["x", "y", "z", "w"]⟩ }
    let session : Session := { interner, fresh := { stem := setting.limits.freshStem } }
    let state : State := { definitions := .equalPowers }
    ∃ next after, state.apply setting.signature .sameBase session = .ok (some next) after ∧
      Exact setting state session := by
  intro setting interner session state
  have posed : Posed setting.signature .equalPowers interner :=
    ⟨Signature.oneSorted_binary, by decide, by decide, by decide⟩
  have purified : purify .equalPowers session = .ok state session := rfl
  exact ⟨_, _, rfl, Reached.exact posed (.start purified)⟩

end ExpAC

section Inexact

open ExpAC

/-- A power of a power, for a variable that stands for the first names to be drawn: `x = exp(exp(a, b), c)`. -/
def Problem.powerOfPower (x : Variable) (a b c : Constant) : Problem :=
  let exp := ExpAC.Signature.binary.exp
  ⟨[⟨.var x, .node exp [.node exp [.const a, .const b], .const c]⟩]⟩

/-- Two definitions by powers, if only the number of a symbol counts: `x = h(a, y)` and `x = exp(a, z)`. -/
def Problem.sameNumber (h : FunctionSymbol) (x y z : Variable) (a : Constant) : Problem :=
  ⟨[⟨.var x, .node h [.const a, .var y]⟩, ⟨.var x, .node ExpAC.Signature.binary.exp [.const a, .var z]⟩]⟩

/-- A variable that the interner does not know is drawn again as a fresh one, which loses a solution.
A symbol with the number of another is taken for it, which gains one. -/
theorem Problem.saturation_inexact :
    let a : Constant := ⟨⟨0⟩, .default⟩
    let b : Constant := ⟨⟨1⟩, .default⟩
    let c : Constant := ⟨⟨2⟩, .default⟩
    let x : Variable := ⟨⟨0⟩, .default⟩
    let y : Variable := ⟨⟨1⟩, .default⟩
    let z : Variable := ⟨⟨2⟩, .default⟩
    let h : FunctionSymbol := ⟨⟨0⟩, 3, .free, .default, .default⟩
    let interner : Interner := { Interner.empty with variableTable := ⟨["x", "y", "z"]⟩ }
    let loses := powerOfPower y a b c
    let gains := sameNumber h x y z a
    ExpAC.Signature.binary.OneSorted ∧
    (∃ state session, Consistent (Spelled .binary loses) ∧
      EverySide (Term.isRegular ExpAC.Signature.binary.f · = true) loses.equations ∧
      Reached ⟨{}, .binary, loses.vars⟩ loses .empty state session ∧
        ¬ Exact ⟨{}, .binary, loses.vars⟩ state session) ∧
    ∃ state session, (∀ v ∈ gains.vars, v.id.index < interner.variableCount) ∧
      EverySide (Term.isRegular ExpAC.Signature.binary.f · = true) gains.equations ∧
      Reached ⟨{}, .binary, gains.vars⟩ gains interner state session ∧
        ¬ Exact ⟨{}, .binary, gains.vars⟩ state session := by
  intro a b c x y z h interner loses gains
  let exp := ExpAC.Signature.binary.exp
  let f := ExpAC.Signature.binary.f
  refine ⟨Signature.oneSorted_binary, ?_, ?_⟩
  · let state : State :=
      { definitions := ⟨[⟨.var x, .node exp [.const a, .const b]⟩, ⟨.var y, .node exp [.var x, .const c]⟩]⟩ }
    let next : State :=
      { definitions := ⟨[⟨.var x, .node exp [.const a, .const b]⟩, ⟨.var y, .node exp [.const a, .var y]⟩,
        ⟨.var y, .node f [.const b, .const c]⟩]⟩ }
    let named (names : List String) : Session :=
      { interner := { Interner.empty with variableTable := ⟨names⟩ }, fresh := { next := names.length } }
    let τ : Substitution := { bindings := [(x, .node exp [.const a, .const b]),
      (y, .node exp [.node exp [.const a, .const b], .const c])], distinct := by decide }
    have purified : purify loses { interner := .empty, fresh := {} } = .ok state (named ["v_0"]) := by cbv
    have applied : state.apply .binary .compose (named ["v_0"]) = .ok (some next) (named ["v_0", "v_1"]) := by cbv
    refine ⟨state, named ["v_0"], by decide, by decide, .start purified, fun exact => ?_⟩
    have solution : state.Solution .binary τ := by
      refine .of_definitions rfl fun e listed => ?_
      simp only [state, List.mem_cons, List.not_mem_nil, or_false] at listed
      rcases listed with rfl | rfl <;> exact .refl _
    obtain ⟨τ', regular, solution', _⟩ := (exact.rule .compose next _ applied τ (by decide)).mp solution
    have holds := ((State.solution_iff_of_canonical (by decide) (by decide)).mp solution').definitions
    have power : EqualModulo .binary (τ'.image y) (.app exp [.const a, τ'.image y]) :=
      holds ⟨.var y, .node exp [.const a, .var y]⟩ (by simp [next])
    have combined : EqualModulo .binary (τ'.image y) (.app f [.const b, .const c]) :=
      holds ⟨.var y, .node f [.const b, .const c]⟩ (by simp [next])
    have values : RegularOn .binary τ'.image := .of_isRegular regular
    have image : (τ'.image y).isRegular f = true := values y rfl
    have powerRegular : (Term.node exp [.const a, τ'.image y]).isRegular f = true :=
      Term.isRegular_node.mpr ⟨.inr rfl, rfl, by simp [exp, f], by simp [image]; rfl⟩
    have same := EqualModulo.compatible Signature.oneSorted_binary (by decide) powerRegular
      (combined.symm.trans power)
    exact absurd same (by decide)
  · let state : State := { definitions := gains }
    let next : State := { definitions := ⟨[⟨.var x, .node h [.const a, .var y]⟩, ⟨.var y, .var z⟩]⟩ }
    let τ : Substitution := { bindings := [(x, .node h [.const a, .var y]), (z, .var y)], distinct := by decide }
    refine ⟨state, _, by decide, by decide, .start rfl, fun exact => ?_⟩
    have solution : next.Solution .binary τ := by
      refine .of_definitions rfl fun e listed => ?_
      simp only [next, List.mem_cons, List.not_mem_nil, or_false] at listed
      rcases listed with rfl | rfl <;> exact .refl _
    have regular : τ.IsRegular f := by decide
    have iff := exact.rule .sameBase next _ rfl τ regular
    have power := (iff.mpr ⟨τ, regular, solution, fun _ _ => rfl⟩).definitions ⟨.var x, .node exp [.const a, .var z]⟩
      (by simp [state, gains, sameNumber, exp])
    have equal : EqualModulo .binary (.app h [.const a, .var y]) (.app exp [.const a, .var y]) := power
    have same := EqualModulo.compatible Signature.oneSorted_binary (by decide) (by decide) equal
    exact absurd same (by decide)

end Inexact

end Equational
