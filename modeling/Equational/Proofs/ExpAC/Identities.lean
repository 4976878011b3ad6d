import Equational.Proofs.Composition
import Equational.Proofs.ExpAC.Closing
import Equational.Proofs.Unification.Soundness

/-! Problems that hold identically. Where the sides of every equation are equal as they stand, there
is nothing to do. Where the laws of exponentiation are needed, the identity still solves the states
up to the first branch. -/

namespace Equational

namespace Substitution

variable {σ τ : Substitution} {vars : List Variable}

private theorem IsRenamingOn.of_beq (renames : σ.IsRenamingOn vars) (same : (σ == τ) = true) :
    τ.IsRenamingOn vars := by
  have images (v : Variable) (member : v ∈ vars) : τ.image v = σ.image v := by
    have equal := image_beq_of_beq same v
    obtain ⟨w, image⟩ := Term.exists_of_isVariable (renames.isVariable v member)
    rw [image] at equal ⊢
    exact eq_var_of_beq (BEq.symm equal)
  refine ⟨fun v member => ?_, fun v member w member' equal => ?_⟩
  · rw [images v member]
    exact renames.isVariable v member
  · rw [images v member, images w member'] at equal
    exact renames.injective v member w member' equal

private theorem IsRenamingOn.restrict (renames : σ.IsRenamingOn vars) : (σ.restrict vars).IsRenamingOn vars := by
  refine ⟨fun v member => ?_, fun v member w member' same => ?_⟩
  · rw [image_restrict member]
    exact renames.isVariable v member
  · rw [image_restrict member, image_restrict member'] at same
    exact renames.injective v member w member' same

end Substitution

open ExpAC

namespace ExpAC

open Search State

section Empty

variable (setting : Setting) (signature : Signature)

private theorem apply_empty (rule : Rule) : ({} : State).apply signature rule = pure none := by
  cases rule <;> rfl

private theorem applyFirst_empty (rules : List Rule) : applyFirst setting {} rules = pure none := by
  induction rules with
  | nil => rfl
  | cons rule rules ih =>
    rw [applyFirst, apply_empty, pure_bind]
    exact ih

private theorem validate_empty : validate setting {} = pure () := by
  simp [validate, State.validate, Problem.size, State.pairs, pairs.pairsOf, checkAcyclic, dependencies]
  rfl

private theorem exhaust_empty (rules : List Rule) : exhaust setting rules {} = pure {} := by
  rw [exhaust, validate_empty, pure_bind, rounds, saturate, applyFirst_empty, pure_bind]

private theorem settle_empty (fuel : Nat) : settle setting (fuel + 1) {} = pure {} := by
  have same : ({} : State).same {} = true := rfl
  rw [settle, exhaust_empty, pure_bind, exhaust_empty, pure_bind, exhaust_empty, pure_bind, if_pos same]

private theorem prepare_empty : prepare setting {} = pure {} := by
  simp only [prepare, exhaust_empty, pure_bind]

private theorem restrict_empty (vars : List Variable) : Substitution.empty.restrict vars = .empty := by
  rw [Substitution.restrict]
  induction vars with
  | nil => rfl
  | cons v vars ih => exact ih

private theorem close_empty : close setting {} = pure [.empty] := by
  have nothing : ({} : State).residual setting.signature = [] := rfl
  rw [State.close_of_unifyAll nothing unifyAll_nil, restrict_empty]

private theorem branch_empty (fuel : Nat) : branch setting (fuel + 1) {} = pure [.empty] := by
  have none : ({} : State).alternatives setting.signature = pure none := rfl
  rw [branch, rounds, settle_empty, pure_bind, none, pure_bind]
  simp only [exhaust_empty, pure_bind, close_empty]

private theorem solve_of_trivial {problem : Problem} (trivial : ∀ e ∈ problem.equations, e.isTrivial = true) :
    solve setting problem = pure [.empty] := by
  have nothing : problem.equations.filter (!·.isTrivial) = [] :=
    List.filter_eq_nil_iff.mpr fun e member => by simp [trivial e member]
  have flat : purify problem = pure {} := by
    rw [purify, nothing]
    rfl
  rw [solve, flat, pure_bind, prepare_empty, pure_bind, rounds, branch_empty]

end Empty

section Renaming

variable {setting : Setting} {signature : Signature} {problem : Problem} {interner : Interner} {m : Variable → Term}
  {σ : Substitution} {vars : List Variable}

private theorem isRenamingOn_of_instance (sorted : signature.OneSorted) (values : RegularOn signature m)
    (regular : σ.IsRegular signature.f) (sorts : ∀ v ∈ vars, v.sort = signature.f.range)
    (identity : ∀ v ∈ vars, m v = .var v)
    (instance' : ∀ v, EqualModulo signature (m v) ((σ.image v).instantiate m)) : σ.IsRenamingOn vars := by
  have each (v : Variable) (member : v ∈ vars) : ∃ w, σ.image v = .var w ∧ EqualModulo signature (.var v) (m w) := by
    have equal := instance' v
    rw [identity v member] at equal
    have image : (σ.image v).isRegular signature.f = true := RegularOn.of_isRegular regular v (sorts v member)
    cases shape : σ.image v with
    | var w =>
      rw [shape] at equal
      exact ⟨w, rfl, equal⟩
    | const c =>
      rw [shape] at equal
      cases EqualModulo.eq_of_isSimple sorted.toLawful rfl rfl equal
    | node h args =>
      rw [shape, Term.instantiate_node] at equal
      rw [shape] at image
      exact absurd equal.symm (EqualModulo.ne_of_isSimple sorted rfl (values.instance_node sorted.f image))
  refine ⟨fun v member => ?_, fun v member w member' same => ?_⟩
  · obtain ⟨w, image, _⟩ := each v member
    rw [image]
    rfl
  · obtain ⟨v', image, value⟩ := each v member
    obtain ⟨w', image', value'⟩ := each w member'
    cases image.symm.trans (same.trans image')
    exact Term.var.inj (EqualModulo.eq_of_isSimple sorted.toLawful rfl rfl (value.trans value'.symm))

end Renaming

end ExpAC

/-- Where the sides of every equation are equal as they stand, the empty substitution is the only unifier. Where they
are equal modulo the laws, there is a renaming of the variables among the unifiers, unless the search reaches a limit
or meets the identity in a terminal state with combinations that depend on each other. -/
theorem Problem.unifyExpAC_identities (limits : Limits) (signature : ExpAC.Signature) (problem : Problem)
    (interner : Interner) :
    ((∀ e ∈ problem.equations, e.isTrivial = true) →
      (problem.unifyExpAC limits signature interner).1 = .ok [.empty]) ∧
    (Posed signature problem interner → EverySide (signature.isBinary · = true) problem.equations →
      (∀ e ∈ problem.equations, ExpAC.EqualModulo signature e.lhs e.rhs) →
      (∃ limit, (problem.unifyExpAC limits signature interner).1 = .error (.limitReached limit)) ∨
      (∃ unifiers, (problem.unifyExpAC limits signature interner).1 = .ok unifiers ∧
        ∃ σ ∈ unifiers, σ.IsRenamingOn problem.vars) ∨
      ∃ state session, Terminal ⟨limits, signature, problem.vars⟩ problem interner state session ∧
        state.residual signature ≠ [] ∧ Survives signature problem .empty state) := by
  refine ⟨fun trivial => ?_, fun posed binary identities => ?_⟩
  · rw [unifyExpAC, solve_of_trivial _ trivial]
    rfl
  · let setting : Setting := ⟨limits, signature, problem.vars⟩
    have posed' : Posed setting.signature problem interner := posed
    by_contra! none
    obtain ⟨unlimited, unrenamed, lost⟩ := none
    have finished : ∀ failure, ((solve setting problem).run limits.freshStem interner).1 = .error failure →
        ¬ failure.IsLimit := by
      rintro failure failed ⟨limit, rfl⟩
      exact unlimited limit failed
    obtain ⟨unifiers, succeeded, σ, member, renames⟩ := exists_of_closes (τ := .empty) posed'
      (fun σ σ' same renames => Substitution.IsRenamingOn.of_beq renames same)
      (Substitution.isRegular_empty _) identities
      (fun state session terminal solvable after => by
        by_cases separate : state.residual signature = []
        · obtain ⟨σ, closed, regular, m, values, extended, instance'⟩ :=
            close_of_terminal posed binary terminal solvable separate
          have renames := isRenamingOn_of_instance posed.sorted values regular posed.sorts
            (fun v member => (extended v (posed.interned v member)).trans (Substitution.image_empty v)) instance'
          rw [closed]
          exact Search.ends_pure ⟨_, List.mem_singleton_self _, renames.restrict⟩
        · exact absurd (survives_of_solvable posed solvable) (lost state session terminal separate)) finished
    exact unrenamed unifiers succeeded σ member renames

namespace SecondLaw

def x : Variable := ⟨⟨0⟩, .default⟩
def y : Variable := ⟨⟨1⟩, .default⟩
def z : Variable := ⟨⟨2⟩, .default⟩

def v (i : Nat) : Variable := ⟨⟨i + 3⟩, .default⟩

def power (s t : Variable) : Term := .node ExpAC.Signature.binary.exp [.var s, .var t]
def pair (s t : Variable) : Term := .node ExpAC.Signature.binary.g [.var s, .var t]

def problem : Problem :=
  ⟨[⟨.node ExpAC.Signature.binary.exp [pair x y, .var z], .node ExpAC.Signature.binary.g [power x z, power y z]⟩]⟩

def setting : Setting := ⟨{}, .binary, problem.vars⟩

def session (fresh steps : Nat) : Session where
  interner :=
    { Interner.empty with variableTable := ⟨["x", "y", "z"] ++
      ["v_0", "v_1", "v_2", "v_3", "v_4", "v_5"].take fresh⟩ }
  fresh := { next := fresh }
  steps := steps

def flat : State :=
  { definitions := ⟨[⟨.var (v 1), pair x y⟩, ⟨.var (v 2), power x z⟩, ⟨.var (v 3), power y z⟩,
      ⟨.var (v 0), power (v 1) z⟩, ⟨.var (v 0), pair (v 2) (v 3)⟩]⟩ }

/-- Distributing names the parts of `g(x, y)` once more, and `x` and `y` are eliminated in favour of these names. -/
def distributed : State :=
  { definitions := ⟨[⟨.var (v 1), pair (v 4) (v 5)⟩, ⟨.var (v 2), power (v 4) z⟩, ⟨.var (v 3), power (v 5) z⟩,
      ⟨.var (v 0), power (v 1) z⟩]⟩
    solved := { bindings := [(x, .var (v 4)), (y, .var (v 5))], distinct := by decide } }

def unifier : Substitution :=
  { bindings := [(v 1, pair (v 4) (v 5)), (v 2, power (v 4) z), (v 3, power (v 5) z),
      (v 0, .node ExpAC.Signature.binary.exp [pair (v 4) (v 5), .var z]), (x, .var (v 4)), (y, .var (v 5))],
    distinct := by decide }

private theorem run_eq : solve setting problem (session 0 0) =
    .ok [{ bindings := [(x, .var (v 4)), (y, .var (v 5))], distinct := by decide }] (session 6 6) := by
  have purified : purify problem (session 0 0) = .ok flat (session 4 0) := by cbv
  have prepared : prepare setting flat (session 4 0) = .ok distributed (session 6 6) := by cbv
  have settled : settle setting (rounds setting) distributed (session 6 6) = .ok distributed (session 6 6) := by cbv
  have unbranched : distributed.alternatives setting.signature (session 6 6) = .ok none (session 6 6) := by cbv
  have exhausted : exhaust setting [.eliminate] distributed (session 6 6) = .ok distributed (session 6 6) := by cbv
  have unified : unifyAll (distributed.closing .binary) = .ok unifier := unifyAll_eq_of_evaluate 20 (by cbv)
  rw [solve, Search.bind_of_ok purified, Search.bind_of_ok prepared, rounds, branch, Search.bind_of_ok settled,
    Search.bind_of_ok unbranched]
  change (exhaust setting [.eliminate] distributed >>= close setting) (session 6 6) = _
  rw [Search.bind_of_ok exhausted, State.close_of_unifyAll rfl unified]
  rfl

end SecondLaw

open SecondLaw in
/-- The second law holds identically, and its unifier renames two variables. -/
theorem Problem.unifyExpAC_renames_secondLaw :
    (∀ e ∈ problem.equations, ExpAC.EqualModulo .binary e.lhs e.rhs) ∧
      (∀ v ∈ problem.vars, v.id.index < (session 0 0).interner.variableCount) ∧
      (problem.unifyExpAC {} .binary (session 0 0).interner).1 =
        .ok [{ bindings := [(x, .var (v 4)), (y, .var (v 5))], distinct := by decide }] :=
  ⟨List.forall_mem_singleton.mpr (.distribute (.var x) (.var y) (.var z)), by decide, Search.run_of_ok run_eq⟩

open SecondLaw in
theorem Problem.unifyExpAC_identities_laws :
    let swapped : Problem :=
      ⟨[⟨.node ExpAC.Signature.binary.f [.var x, .var y], .node ExpAC.Signature.binary.f [.var y, .var x]⟩]⟩
    let interner := (session 0 0).interner
    (swapped.unifyExpAC {} .binary interner).1 = .ok [.empty] ∧
      ((∃ unifiers, (problem.unifyExpAC {} .binary interner).1 = .ok unifiers ∧
      ∃ σ ∈ unifiers, σ.IsRenamingOn problem.vars) ∨
        ∃ state session, Terminal setting problem interner state session ∧
          state.residual .binary ≠ [] ∧ Survives .binary problem .empty state) := by
  intro swapped interner
  refine ⟨(unifyExpAC_identities {} .binary swapped interner).1 (by decide), ?_⟩
  have posed : Posed .binary problem interner := ⟨Signature.oneSorted_binary, by decide, by decide, by decide⟩
  have identities : ∀ e ∈ problem.equations, ExpAC.EqualModulo .binary e.lhs e.rhs :=
    List.forall_mem_singleton.mpr (.distribute (.var x) (.var y) (.var z))
  have outcome : (problem.unifyExpAC {} .binary interner).1 = .ok _ := Search.run_of_ok run_eq
  refine ((unifyExpAC_identities {} .binary problem interner).2 posed (by decide) identities).resolve_left ?_
  rintro ⟨limit, failed⟩
  cases outcome.symm.trans failed

end Equational
