import Equational.Proofs.AC.Combination
import Equational.Proofs.ExpAC.Closing
import Equational.Proofs.ExpAC.Plain

/-! Problems over the combiner alone. Their states define variables by constants and by combinations of
leaves. The combinations that depend on each other are solved for the combiner, and under each
of their unifiers the other definitions still define one variable after the other. So closing loses
no solution, and the unifiers that it returns are a complete set. -/

namespace Equational

namespace ExpAC

open Search State Term

variable {setting : Setting} {signature : Signature} {problem : Problem} {state : State} {session : Session}
  {start n : Nat}
  {m μ : Variable → Term} {θ : Substitution} {e d : Equation} {x v w : Variable} {t : Term} {f : FunctionSymbol}

private theorem powerless_isCombination (sorted : signature.OneSorted)
    (apart : signature.f.id ≠ signature.exp.id ∧ signature.f.id ≠ signature.g.id) :
    Powerless signature (· = signature.f) (IsCombination signature.f) where
  toNameable := nameable_isCombination sorted.f
  consistent := by
    rintro _ _ rfl rfl _
    rfl
  symbols := by
    rintro _ rfl
    exact apart
  free {h args} combination unreserved := by
    obtain ⟨rfl, _, _⟩ := isCombination_node.mp combination
    simp [Signature.isReserved] at unreserved
  grows {h args flat} combination lengths each arg member := by
    obtain ⟨rfl, many, _⟩ := isCombination_node.mp combination
    have lighter := Term.weight_lt_app sorted.f (by rwa [lengths])
      (fun other among => isAtLeastBinary_of_isRegular (each other among).1) arg member
    have bounded := size_shape_le sorted arg
    have rooted := size_shape_of_rooted sorted.f (t := app signature.f flat) (by simp [app, sorted.f, head?])
    omega

namespace State

private theorem exists_of_isSeparate {combined : List Equation} (separate : isSeparate combined e = true) :
    ∃ x, e.lhs = .var x ∧ x ∉ e.rhs.vars ∧ ∀ d ∈ combined, (d == e) = true ∨ x ∉ d.vars := by
  simp only [isSeparate, Option.any_eq_true, Bool.and_eq_true, Bool.not_eq_true', List.all_eq_true,
    Bool.or_eq_true] at separate
  obtain ⟨x, name, absent, others⟩ := separate
  refine ⟨x, AC.asVariable_eq_some (by simp [name]), ?_, fun d member => (others d member).imp_right ?_⟩
  · simpa [Term.contains] using absent
  · intro absent'
    simpa [Equation.contains, Term.contains, Equation.vars] using absent'

def plain (signature : Signature) (state : State) : List Equation :=
  state.definitions.equations.filter (!·.rhs.isRootedAt signature.f.id)

def settled (signature : Signature) (state : State) : List Equation :=
  (state.combinations signature).filter (isSeparate (state.combinations signature)) ++
    state.solved.toProblem.equations

private theorem closing_eq (signature : Signature) (state : State) :
    state.closing signature = state.plain signature ++ state.settled signature :=
  List.append_assoc ..

def residualVars (signature : Signature) (state : State) : List Variable :=
  (state.residual signature).flatMap Equation.vars

section Definitions

variable (proper : state.Proper (· = signature.f) n) (neat : state.Neat (IsCombination signature.f) n)
include proper

private theorem usable_of_mem_vars (listed : e ∈ state.definitions.equations) (occurs : v ∈ e.vars) :
    state.Usable n v :=
  (List.mem_append.mp occurs).elim ((proper.definitions e listed).1.vars v) ((proper.definitions e listed).2.vars v)

private theorem usable_of_mem_residualVars (occurs : v ∈ state.residualVars signature) : state.Usable n v := by
  obtain ⟨e, member, inside⟩ := List.mem_flatMap.mp occurs
  exact usable_of_mem_vars proper (List.mem_of_mem_filter (List.mem_of_mem_filter member)) inside

include neat

private theorem inUse_of_mem_vars (listed : e ∈ state.definitions.equations) (occurs : v ∈ e.vars) :
    AC.InUse signature.f n v := by
  have naming := neat.definitions e listed
  refine ⟨?_, (usable_of_mem_vars proper listed occurs).1⟩
  exact (List.mem_append.mp occurs).elim (sort_of_mem_vars naming.left.1) (sort_of_mem_vars naming.right.1)

private theorem inUse_of_mem_residualVars (occurs : v ∈ state.residualVars signature) : AC.InUse signature.f n v := by
  obtain ⟨e, member, inside⟩ := List.mem_flatMap.mp occurs
  exact inUse_of_mem_vars proper neat (List.mem_of_mem_filter (List.mem_of_mem_filter member)) inside

private theorem combinations_residual (sorted : signature.OneSorted) :
    AC.Combinations signature.f (state.residual signature) where
  laws := sorted.f
  sorts := sorted.fDomain
  sides :=
    everySide_residual (fun e listed => ⟨(neat.definitions e listed).left,
      (neat.definitions e listed).right⟩) signature
  canonical := everySide_residual (fun e listed =>
    ⟨(proper.definitions e listed).1.formed.canonical, (proper.definitions e listed).2.formed.canonical⟩) signature

omit proper in
private theorem Neat.eq_of_beq (first : e ∈ state.definitions.equations) (second : d ∈ state.definitions.equations)
    (same : (d == e) = true) :
    d = e := by
  have : Std.Symm fun e d : Equation => (e == d) = false := ⟨fun _ _ differs => by rw [← differs, BEq.comm]⟩
  by_contra other
  rw [neat.apart.forall second first other] at same
  cases same

omit proper in
private theorem exists_of_separate
    (member : e ∈ (state.combinations signature).filter (isSeparate (state.combinations signature))) :
    ∃ x, e.lhs = .var x ∧ x ∉ state.residualVars signature ∧ ∀ d ∈ state.combinations signature,
      x ∈ d.vars → d = e := by
  obtain ⟨inside, separate⟩ := List.mem_filter.mp member
  obtain ⟨x, name, _, others⟩ := exists_of_isSeparate separate
  have only (d : Equation) (listed : d ∈ state.combinations signature) (occurs : x ∈ d.vars) : d = e := by
    have same := (others d listed).resolve_right (absurd occurs)
    exact neat.eq_of_beq (List.mem_of_mem_filter inside) (List.mem_of_mem_filter listed) same
  refine ⟨x, name, fun occurs => ?_, only⟩
  obtain ⟨d, left, deeper⟩ := List.mem_flatMap.mp occurs
  obtain ⟨listed, dependent⟩ := List.mem_filter.mp left
  rw [only d listed deeper, separate] at dependent
  cases dependent

private theorem exists_of_settled (member : d ∈ state.settled signature) :
    ∃ x, d.lhs = .var x ∧ x ∉ state.residualVars signature ∧ AC.InUse signature.f n x := by
  rcases List.mem_append.mp member with separate | eliminated
  · obtain ⟨x, name, outside, _⟩ := exists_of_separate neat separate
    have listed := List.mem_of_mem_filter (List.mem_of_mem_filter separate)
    exact ⟨x, name, outside, inUse_of_mem_vars proper neat listed (by simp [Equation.vars, name, Term.vars])⟩
  · obtain ⟨p, listed, rfl⟩ := Substitution.mem_toProblem.mp eliminated
    have domain := Substitution.mem_domain_iff.mpr ⟨_, listed⟩
    refine ⟨p.1, rfl, fun occurs => (usable_of_mem_residualVars proper occurs).2 domain, ?_, proper.domain p.1 domain⟩
    exact isCombination_var.mp (neat.bound p listed).1

private theorem pairwise_settled : (state.settled signature).Pairwise fun e d => e.lhs ≠ d.lhs := by
  refine List.pairwise_append.mpr ⟨?_, pairwise_solved state, fun e separate d eliminated => ?_⟩
  · have distinct : (state.combinations signature).Pairwise fun e d => (e == d) = false :=
      neat.apart.sublist List.filter_sublist
    refine (List.Pairwise.and_mem.mp (distinct.sublist List.filter_sublist)).imp ?_
    rintro e d ⟨first, second, differs⟩ same
    obtain ⟨x, name, _, only⟩ := exists_of_separate neat first
    have equal := only d (List.mem_of_mem_filter second) (by simp [Equation.vars, ← same, name, Term.vars])
    rw [equal] at differs
    simp at differs
  · have listed := List.mem_of_mem_filter (List.mem_of_mem_filter separate)
    obtain ⟨p, bound, rfl⟩ := Substitution.mem_toProblem.mp eliminated
    intro same
    have usable := usable_of_mem_vars proper listed (v := p.1) (by simp [Equation.vars, same, Term.vars])
    exact usable.2 (Substitution.mem_domain_iff.mpr ⟨_, bound⟩)

end Definitions

/-- The size of the value of a variable, with eliminated variables above those that stay. -/
noncomputable def height (signature : Signature) (state : State) (μ : Variable → Term) (v : Variable) : Nat :=
  2 * Term.weight signature.f (μ v) + if v ∈ state.solved.domain then 1 else 0

/-- What satisfies the state is an instance of a unifier of its residual problem, which binds variables of that problem
to combinations of them and of fresh variables. -/
structure Residue (signature : Signature) (n : Nat) (state : State) (m μ : Variable → Term) (θ : Substitution) :
    Prop where
  holds : state.HoldsIn Term.Same m
  suits : Suits (IsCombination signature.f) m
  range : ∀ t ∈ θ.range, t.IsCombination signature.f
  domain : ∀ v ∈ θ.domain, v ∈ state.residualVars signature
  fresh : ∀ t ∈ θ.range, ∀ v ∈ t.vars, v ∈ state.residualVars signature ∨ n ≤ v.id.index
  general : ∀ v, AC.InUse signature.f n v → (m v).shape = ((θ.image v).instantiate μ).shape

namespace Residue

variable (residue : Residue signature n state m μ θ)
include residue

private theorem image (inUse : AC.InUse signature.f n v) : (θ.image v).IsCombination signature.f :=
  image_of_range residue.range v (isCombination_var.mpr inUse.1)

private theorem instance_apply (inUse : ∀ v ∈ t.vars, AC.InUse signature.f n v) :
    ((θ.apply t).instantiate μ).shape = (t.instantiate m).shape :=
  (Substitution.instantiate_apply θ μ t).trans
    (instantiate_congr_left fun v occurs => (residue.general v (inUse v occurs)).symm)

private theorem holds_apply (inUse : ∀ v ∈ e.vars, AC.InUse signature.f n v) (holds : e.Holds m) :
    (θ.applyEquation e).Holds μ :=
  (residue.instance_apply fun v occurs => inUse v (List.mem_append_left _ occurs)).trans
    (holds.trans (residue.instance_apply fun v occurs => inUse v (List.mem_append_right _ occurs)).symm)

private theorem apply_var (outside : x ∉ state.residualVars signature) : θ.apply (.var x) = .var x := by
  rw [Substitution.apply_var, Substitution.image_of_not_mem fun bound => outside (residue.domain x bound)]

private theorem value (outside : x ∉ state.residualVars signature) (inUse : AC.InUse signature.f n x) :
    (m x).shape = (μ x).shape := by
  have general := residue.general x inUse
  rwa [Substitution.image_of_not_mem fun bound => outside (residue.domain x bound)] at general

section Sorted

variable (sorted : signature.OneSorted)
include sorted

private theorem weight_le (inUse : AC.InUse signature.f n v) (occurs : w ∈ (θ.image v).vars) :
    Term.weight signature.f (μ w) ≤ Term.weight signature.f (m v) := by
  rw [Term.weight_congr (residue.general v inUse)]
  exact Term.weight_le_of_mem_vars sorted.f (fun g member => .inl ((residue.image inUse).2 g member)) occurs μ

variable (proper : state.Proper (· = signature.f) n) (neat : state.Neat (IsCombination signature.f) n)
include proper neat

private theorem given (eliminated : state.Idle signature .eliminate) (member : e ∈ state.plain signature) :
    ∃ c, Unifier.Given signature.f μ (θ.applyEquation e) c := by
  obtain ⟨listed, unrooted⟩ := List.mem_filter.mp member
  have naming := neat.definitions e listed
  obtain ⟨x, name⟩ := naming.exists_var
  have inUse : AC.InUse signature.f n x :=
    inUse_of_mem_vars proper neat listed (by simp [Equation.vars, name, Term.vars])
  have value := residue.general x inUse
  have image := residue.image inUse
  have definition := residue.holds.definitions e listed
  have combination := naming.right
  rw [Equation.HoldsIn, name] at definition
  cases shape : e.rhs with
  | var y => exact absurd shape (ne_var_of_idle eliminated listed ⟨x, name⟩)
  | node h args =>
    rw [shape] at combination unrooted
    simp [(isCombination_node.mp combination).1, Term.isRootedAt] at unrooted
  | const c =>
    rw [shape] at combination definition
    have constant : ((θ.image x).instantiate μ).shape = .const c := value.symm.trans definition
    refine ⟨c, by rw [Substitution.applyEquation, shape, Substitution.apply_const], combination.sort, ?_⟩
    rw [Substitution.applyEquation, name, Substitution.apply_var]
    generalize θ.image x = t at image constant
    cases t with
    | var w => exact .inr ⟨w, rfl, image.sort, constant⟩
    | const d => exact .inl constant
    | node h args => exact absurd constant (image.shape_ne_const sorted.f μ c)

private theorem defines_separate
    (member : e ∈ (state.combinations signature).filter (isSeparate (state.combinations signature))) :
    ∃ x, (θ.applyEquation e).lhs = .var x ∧
      Unifier.Defines signature.f (height signature state μ) x (θ.applyEquation e).rhs := by
  have listed := List.mem_of_mem_filter (List.mem_of_mem_filter member)
  have rooted := (List.mem_filter.mp (List.mem_of_mem_filter member)).2
  obtain ⟨x, name, outside, _⟩ := exists_of_separate neat member
  have naming := neat.definitions e listed
  have known {y : Variable} (occurs : y ∈ e.vars) := inUse_of_mem_vars proper neat listed occurs
  have inUse : AC.InUse signature.f n x := known (by simp [Equation.vars, name, Term.vars])
  have usable := usable_of_mem_vars proper listed (v := x) (by simp [Equation.vars, name, Term.vars])
  have definition := residue.holds.definitions e listed
  rw [Equation.HoldsIn, name, Term.instantiate] at definition
  refine ⟨x, by rw [Substitution.applyEquation, name, residue.apply_var outside], inUse.1, ?_, fun w occurs => ?_⟩
  · exact ((substitutive_isCombination sorted.f).apply residue.range naming.right).1
  · obtain ⟨y, inside, image⟩ := Substitution.mem_vars_apply occurs
    have lighter : Term.weight signature.f (m y) < Term.weight signature.f (m x) := by
      rw [Term.weight_congr definition]
      have combination := naming.right
      generalize e.rhs = t at inside rooted combination
      cases t with
      | var v | const c => cases rooted
      | node h args => exact combination.weight_lt sorted.f residue.suits inside
    have bounded := residue.weight_le sorted (known (List.mem_append_right _ inside)) image
    rw [Term.weight_congr (residue.value outside inUse)] at lighter
    rw [height, height, if_neg usable.2]
    split <;> omega

private theorem defines_solved (member : d ∈ state.solved.toProblem.equations) :
    ∃ x, (θ.applyEquation d).lhs = .var x ∧
    Unifier.Defines signature.f (height signature state μ) x (θ.applyEquation d).rhs := by
  obtain ⟨p, listed, rfl⟩ := Substitution.mem_toProblem.mp member
  have domain := Substitution.mem_domain_iff.mpr ⟨_, listed⟩
  have outside : p.1 ∉ state.residualVars signature := fun occurs =>
    (usable_of_mem_residualVars proper occurs).2 domain
  obtain ⟨named, target⟩ := neat.bound p listed
  obtain ⟨y, image, usable⟩ := neat.solved p listed
  have inUse : AC.InUse signature.f n p.1 := ⟨isCombination_var.mp named, proper.domain p.1 domain⟩
  have inUse' : AC.InUse signature.f n y := ⟨isCombination_var.mp (image ▸ target), usable.1⟩
  have same := residue.holds.solved p.1
  rw [Substitution.image_of_mem listed, image] at same
  refine ⟨p.1, residue.apply_var outside, inUse.1, ?_, fun w occurs => ?_⟩
  · exact ((substitutive_isCombination sorted.f).apply residue.range target).1
  · change w ∈ (θ.apply p.2).vars at occurs
    rw [image, Substitution.apply_var] at occurs
    have stays : w ∉ state.solved.domain := by
      rcases θ.image_mem_or y with bound | ⟨_, free⟩
      · rcases residue.fresh _ (Substitution.mem_range_of_mem bound) w occurs with old | new
        · exact (usable_of_mem_residualVars proper old).2
        · exact fun eliminated => absurd (proper.domain w eliminated) (Nat.not_lt.mpr new)
      · rw [free, Term.vars, List.mem_singleton] at occurs
        exact occurs ▸ usable.2
    have bounded := residue.weight_le sorted inUse' occurs
    have equal : Term.weight signature.f (μ p.1) = Term.weight signature.f (m y) :=
      (Term.weight_congr (residue.value outside inUse)).symm.trans (Term.weight_congr same)
    rw [height, height, if_neg stays, if_pos domain]
    omega

variable (eliminated : state.Idle signature .eliminate)
include eliminated

private theorem lhs_ne (first : e ∈ state.plain signature) (second : d ∈ state.settled signature) :
    (θ.applyEquation e).lhs ≠ (θ.applyEquation d).lhs := by
  obtain ⟨x, name, outside, inUse⟩ := exists_of_settled proper neat second
  have left : (θ.applyEquation d).lhs = .var x := by rw [Substitution.applyEquation, name, residue.apply_var outside]
  have listed := List.mem_of_mem_filter first
  obtain ⟨y, name'⟩ := (neat.definitions e listed).exists_var
  rw [left]
  intro same
  rcases List.mem_append.mp second with separate | solved
  · obtain ⟨c, given⟩ := residue.given sorted proper neat eliminated first
    have listed' := List.mem_of_mem_filter (List.mem_of_mem_filter separate)
    have rooted := (List.mem_filter.mp (List.mem_of_mem_filter separate)).2
    have definition := residue.holds.definitions d listed'
    have combination := (neat.definitions d listed').right
    rw [Equation.HoldsIn, name] at definition
    have constant : (μ x).shape = .const c := by
      rcases given.left with constant | ⟨x', left', _, value⟩
      · cases same.symm.trans constant
      · cases same.symm.trans left'
        exact value
    have value : (d.rhs.instantiate m).shape = .const c :=
      definition.symm.trans ((residue.value outside inUse).trans constant)
    generalize d.rhs = t at rooted combination value
    cases t with
    | var v | const c => cases rooted
    | node h args => exact combination.shape_ne_const sorted.f m c value
  · obtain ⟨p, bound, rfl⟩ := Substitution.mem_toProblem.mp solved
    cases name
    have usable := usable_of_mem_vars proper listed (v := y) (by simp [Equation.vars, name', Term.vars])
    rw [Substitution.applyEquation, name', Substitution.apply_var] at same
    change θ.image y = .var p.1 at same
    rcases θ.image_mem_or y with moved | ⟨_, free⟩
    · have occurs : p.1 ∈ (θ.image y).vars := by
        rw [same]
        exact List.mem_singleton_self _
      rcases residue.fresh _ (Substitution.mem_range_of_mem moved) p.1 occurs with old | new
      · exact outside old
      · exact absurd inUse.2 (Nat.not_lt.mpr new)
    · rw [free, Term.var.injEq] at same
      rw [same] at usable
      exact usable.2 (Substitution.mem_domain_iff.mpr ⟨_, bound⟩)

/-- Under the unifier, the definitions have a unifier of which the rest of the solution is an instance. -/
theorem exists_unifyAll : ∃ σ, unifyAll ((state.closing signature).map θ.applyEquation) = .ok σ ∧ σ.Holds μ := by
  have moved {d : Equation} (member : d ∈ state.settled signature) : (θ.applyEquation d).lhs = d.lhs := by
    obtain ⟨x, name, outside, _⟩ := exists_of_settled proper neat member
    rw [Substitution.applyEquation, name, residue.apply_var outside]
  rw [closing_eq, List.map_append]
  refine exists_unifyAll_of_constants (height signature state μ) sorted.f (fun e member => ?_) (fun e member => ?_) ?_
    (fun e first d second => ?_) fun e member => ?_
  · obtain ⟨origin, inside, rfl⟩ := List.mem_map.mp member
    exact residue.given sorted proper neat eliminated inside
  · obtain ⟨origin, inside, rfl⟩ := List.mem_map.mp member
    rcases List.mem_append.mp inside with separate | solved
    · exact residue.defines_separate sorted proper neat separate
    · exact residue.defines_solved sorted proper neat solved
  · refine List.pairwise_map.mpr ((List.Pairwise.and_mem.mp (pairwise_settled proper neat)).imp ?_)
    rintro e d ⟨first, second, distinct⟩
    rwa [moved first, moved second]
  · obtain ⟨e, inside, rfl⟩ := List.mem_map.mp first
    obtain ⟨d, inside', rfl⟩ := List.mem_map.mp second
    exact residue.lhs_ne sorted proper neat eliminated inside inside'
  · obtain ⟨origin, inside, rfl⟩ := List.mem_map.mp member
    have closed := ((holdsIn_iff_parts Term.congruence_same signature).mp residue.holds).1 origin
      (closing_eq signature state ▸ List.mem_append_right _ inside)
    refine residue.holds_apply (fun v occurs => ?_) closed
    rcases List.mem_append.mp inside with separate | solved
    · exact inUse_of_mem_vars proper neat (List.mem_of_mem_filter (List.mem_of_mem_filter separate)) occurs
    · obtain ⟨p, bound, rfl⟩ := Substitution.mem_toProblem.mp solved
      obtain ⟨named, target⟩ := neat.bound p bound
      obtain ⟨y, image, usable⟩ := neat.solved p bound
      rw [image] at target
      rcases List.mem_append.mp occurs with left | right
      · rw [List.mem_singleton.mp left]
        exact ⟨isCombination_var.mp named, proper.domain _ (Substitution.mem_domain_iff.mpr ⟨_, bound⟩)⟩
      · change v ∈ p.2.vars at right
        rw [image] at right
        rw [List.mem_singleton.mp right]
        exact ⟨isCombination_var.mp target, usable.1⟩

private theorem exists_closeWith (sorts : ∀ v, (μ v).sort = v.sort)
    (scope : ∀ v ∈ setting.scope, AC.InUse signature.f n v) :
    ∃ σ, closeWith setting (state.closing signature) θ = .ok σ ∧ σ.Generalizes (· ∈ setting.scope) m := by
  obtain ⟨σ, unified, holds⟩ := residue.exists_unifyAll sorted proper neat eliminated
  refine ⟨(θ.compose σ).restrict setting.scope, by rw [closeWith, unified]; rfl, μ, sorts, fun v member => ?_⟩
  calc (m v).shape
    _ = ((θ.image v).instantiate μ).shape := residue.general v (scope v member)
    _ = ((σ.apply (θ.image v)).instantiate μ).shape := (holds.apply (θ.image v)).symm
    _ = (((θ.compose σ).image v).instantiate μ).shape :=
      instantiate_congr (Substitution.shape_image_compose θ σ v).symm μ
    _ = ((((θ.compose σ).restrict setting.scope).image v).instantiate μ).shape := by
      rw [Substitution.image_restrict member]

end Sorted

end Residue

end State

section Closing

/-- The unifiers of the residual problem, as a search for them returns them. -/
structure Thetas (signature : Signature) (n : Nat) (state : State) (thetas : List Substitution) : Prop where
  complete : CompleteSet (IsCombination signature.f) (state.residual signature) (AC.InUse signature.f n) thetas
  domain : ∀ θ ∈ thetas, ∀ v ∈ θ.domain, v ∈ state.residualVars signature
  fresh : ∀ θ ∈ thetas, ∀ t ∈ θ.range, ∀ v ∈ t.vars, v ∈ state.residualVars signature ∨ n ≤ v.id.index

section Thetas

variable {thetas : List Substitution} (found : Thetas signature n state thetas) (member : θ ∈ thetas)
  (inUse : ∀ v ∈ state.residualVars signature, AC.InUse signature.f n v)
include found member inUse

private theorem Thetas.range : ∀ t ∈ θ.range, t.IsCombination signature.f ∧ t.isCanonical = true := by
  intro t inside
  obtain ⟨v, bound⟩ := Substitution.exists_of_mem_range inside
  have known := inUse v (found.domain θ member v (Substitution.mem_domain_iff.mpr ⟨t, bound⟩))
  obtain ⟨m, suits, _, values⟩ := found.complete.solves θ member
  have canonical := found.complete.canonical θ member v known
  have value := values v known
  rw [Substitution.image_of_mem bound] at canonical value
  exact ⟨value ▸ (suits v (isCombination_var.mpr known.1)).1, canonical⟩

private theorem Thetas.holds : ∀ e ∈ state.residual signature, e.Holds θ.image := by
  intro e listed
  obtain ⟨m, _, holds, values⟩ := found.complete.solves θ member
  have agree {t : Term} (inside : ∀ v ∈ t.vars, v ∈ e.vars) :
      (t.instantiate θ.image).shape = (t.instantiate m).shape :=
    instantiate_congr_left fun v occurs => by
      rw [values v (inUse v (List.mem_flatMap.mpr ⟨e, listed, inside v occurs⟩))]
  exact (agree fun v => List.mem_append_left _).trans
    ((holds e listed).trans (agree fun v => List.mem_append_right _).symm)

end Thetas

private theorem ends_residual (sorted : signature.OneSorted) (limits : Limits)
    (proper : state.Proper (· = signature.f) session.names)
    (neat : state.Neat (IsCombination signature.f) session.names) :
    (AC.solve limits (state.residual signature)).Ends session
      (fun thetas _ => Thetas signature session.names state thetas)
      (fun failure => failure.IsLimit ∨ ∀ m, Suits (IsCombination signature.f) m → ¬ ∀ e ∈ state.residual signature,
        e.Holds m) := by
  have old : ∀ v ∈ (state.residual signature).flatMap Equation.vars, v.id.index < session.names :=
    fun v occurs => (usable_of_mem_residualVars proper occurs).1
  have combinations := combinations_residual proper neat sorted
  refine ((AC.ends_solve_combinations limits combinations old).and (AC.ends_solve_resolved limits old)).mono ?_
    fun _ => And.left
  rintro thetas _ _ ⟨complete, _, resolved⟩
  refine ⟨complete, fun θ member => (resolved θ member).domain, fun θ member t inside v occurs => ?_⟩
  exact ((resolved θ member).range t inside v occurs).imp id And.left

variable {unifiers : List Substitution} {thetas : List Substitution} (sorted : setting.signature.OneSorted)
  (represents : Represents (· = setting.signature.f) (IsCombination setting.signature.f) problem start
    session.names state)
  (found : Thetas setting.signature session.names state thetas)
include sorted represents found

private theorem Thetas.solves_closeWith {σ : Substitution} (member : θ ∈ thetas)
    (closed : closeWith setting (state.closing setting.signature) θ = .ok σ) :
    (∀ v ∈ setting.scope, (σ.image v).isCanonical = true) ∧ ∃ m, Suits (IsCombination setting.signature.f) m ∧
      (∀ e ∈ problem.equations, e.Holds m) ∧ ∀ v ∈ setting.scope, σ.image v = m v := by
  obtain ⟨proper, neat, sound, _, _⟩ := represents
  have substitutive := substitutive_isCombination sorted.f
  have inUse : ∀ v ∈ state.residualVars setting.signature, AC.InUse setting.signature.f session.names v :=
    fun v occurs => inUse_of_mem_residualVars proper neat occurs
  have range := found.range member inUse
  have formed : EverySide (WellFormed (· = setting.signature.f)) (state.closing setting.signature) :=
    everySide_closing (proper.definitions.imp fun fits => fits.formed) _ fun p listed =>
      ⟨(hereditary_wellFormed _).var p.1, proper.range _ (List.mem_map_of_mem listed)⟩
  have sides : EverySide (IsCombination setting.signature.f) (state.closing setting.signature) :=
    everySide_closing (fun e listed => ⟨(neat.definitions e listed).left, (neat.definitions e listed).right⟩)
      _ neat.bound
  have consistent : Consistent (· = setting.signature.f) := by
    rintro _ _ rfl rfl _
    rfl
  obtain ⟨τ, holds, kept, agree, passes⟩ := exists_of_closeWith consistent formed
    (fun t inside => ⟨(range t inside).2, (range t inside).1.2⟩) closed
  have canonical := passes _ hereditary_isCanonical.substitutive (formed.imp fun formed => formed.canonical)
    fun t inside => (range t inside).2
  have combination := passes _ substitutive sides fun t inside => (range t inside).1
  have separate := combinations_residual proper neat sorted
  refine ⟨fun v inside => ?_, τ.image, suits_isCombination combination, sound _ ?_, agree⟩
  · rw [agree v inside]
    exact Substitution.image_hereditary hereditary_isCanonical canonical v
  · refine (holdsIn_iff_parts Term.congruence_same setting.signature).mpr ⟨holds, fun e listed => ?_⟩
    exact kept e (separate.canonical e listed).1 (separate.canonical e listed).2 (found.holds member inUse e listed)

variable (eliminated : state.Idle setting.signature .eliminate)
  (scope : ∀ v ∈ setting.scope, AC.InUse setting.signature.f start v)
include eliminated scope

/-- Every solution of the problem is an instance of what closing returns under one of the unifiers. -/
theorem Thetas.exists_closeWith (suits : Suits (IsCombination setting.signature.f) m)
    (holds : ∀ e ∈ problem.equations, e.Holds m) :
    ∃ θ ∈ thetas, ∃ σ, closeWith setting (state.closing setting.signature) θ = .ok σ ∧
    σ.Generalizes (· ∈ setting.scope) m := by
  obtain ⟨proper, neat, _, complete, older⟩ := represents
  obtain ⟨m', suits', extended, holds'⟩ := complete m suits holds
  have inUse : ∀ v ∈ state.residualVars setting.signature, AC.InUse setting.signature.f session.names v :=
    fun v occurs => inUse_of_mem_residualVars proper neat occurs
  have residual := ((holdsIn_iff_parts Term.congruence_same setting.signature).mp holds').2
  obtain ⟨θ, member, μ, sorts, general⟩ := found.complete.covers m' suits' residual
  have residue : Residue setting.signature session.names state m' μ θ :=
    ⟨holds', suits', fun t inside => (found.range member inUse t inside).1, found.domain θ member,
      found.fresh θ member, general⟩
  obtain ⟨σ, closed, μ', sorts', values⟩ := residue.exists_closeWith sorted proper neat eliminated sorts
    fun v inside => ⟨(scope v inside).1, Nat.lt_of_lt_of_le (scope v inside).2 older⟩
  refine ⟨θ, member, σ, closed, μ', sorts', fun v inside => ?_⟩
  rw [← extended v (scope v inside).2]
  exact values v inside

omit found in
/-- Closing returns a complete set of unifiers, unless a limit is reached or nothing satisfies the problem. -/
theorem ends_close_combinations : (close setting state).Ends session
    (fun unifiers _ => CompleteSet (IsCombination setting.signature.f) problem.equations (· ∈ setting.scope) unifiers)
    (fun failure => failure.IsLimit ∨ Unsolvable (IsCombination setting.signature.f) problem) := by
  have unsatisfied (none : ∀ m, Suits (IsCombination setting.signature.f) m →
        ¬ ∀ e ∈ state.residual setting.signature, e.Holds m) :
      Unsolvable (IsCombination setting.signature.f) problem :=
    represents.unsolvable fun m suits holds =>
      none m suits ((holdsIn_iff_parts Term.congruence_same setting.signature).mp holds).2
  rw [close_eq]
  refine ((ends_residual sorted setting.limits represents.proper represents.neat).mono (fun _ _ _ found => found)
    fun _ fails => fails.imp_right unsatisfied).bind ?_
  intro thetas after _ found
  let run (θ : Substitution) := (closeWith setting (state.closing setting.signature) θ).map ([·])
  have gathers {harvest : Harvest} (folded : thetas.foldlM (fun (harvest : Harvest) θ => harvest.add (run θ)) {} =
        .ok harvest)
      {m : Variable → Term} (suits : Suits (IsCombination setting.signature.f) m) (holds : ∀ e ∈ problem.equations,
        e.Holds m) :
      harvest.Any (·.Generalizes (· ∈ setting.scope) m) := by
    obtain ⟨θ, member, σ, closed, general⟩ := found.exists_closeWith sorted represents eliminated scope suits holds
    refine Harvest.any_foldlM (fun _ _ => Substitution.Generalizes.of_beq)
      (.inr ⟨θ, member, [σ], ?_, σ, List.mem_singleton_self σ, general⟩) folded
    change (closeWith setting (state.closing setting.signature) θ).map ([·]) = _
    rw [closed]
    rfl
  refine ends_ofExcept (fun unifiers succeeded => ?_) fun failure failed => ?_
  · obtain ⟨harvest, folded, returned⟩ := exists_of_bind_eq_ok succeeded
    have each : ∀ θ ∈ thetas, (run θ).Gives (∀ σ ∈ ·, (∀ v ∈ setting.scope, (σ.image v).isCanonical = true) ∧
        ∃ m, Suits (IsCombination setting.signature.f) m ∧ (∀ e ∈ problem.equations, e.Holds m) ∧
          ∀ v ∈ setting.scope, σ.image v = m v) (fun _ => True) := by
      refine fun θ member => Except.gives_of (fun unifiers mapped => ?_) fun _ _ => trivial
      obtain ⟨σ, closed, rfl⟩ := exists_of_map_eq_ok mapped
      exact List.forall_mem_singleton.mpr (found.solves_closeWith sorted represents member closed)
    obtain ⟨some, all⟩ := (Harvest.gives_result ((Harvest.gives_gather each).of_ok folded) trivial).of_ok returned
    refine ⟨some, fun σ member => (all σ member).1, fun σ member => (all σ member).2, fun m suits holds => ?_⟩
    have any := gathers folded suits holds
    cases (Harvest.any_result any).symm.trans returned
    exact any
  · rcases exists_of_bind_eq_error failed with folded | ⟨harvest, folded, empty⟩
    · exact .inl (Harvest.isLimit_of_foldlM folded)
    · refine .inr fun m suits holds => ?_
      cases (Harvest.any_result (gathers folded suits holds)).symm.trans empty

end Closing

end ExpAC

/-- A variable, a constant, or an application of the symbol to two or more of them, all of one sort. -/
def Term.isFlatCombination (f : FunctionSymbol) : Term → Bool
  | .node g args => g == f && 2 ≤ args.length && args.all fun arg => arg.isSimple && arg.sort == f.range
  | t => t.sort == f.range

private theorem Term.isCombination_of_isFlatCombination {f : FunctionSymbol} {t : Term}
    (flat : t.isFlatCombination f = true)
    (laws : f.theory = .associativeCommutative) : t.IsCombination f ∧ t.isCanonical = true := by
  cases t with
  | var v => exact ⟨isCombination_of_isSimple rfl (by simpa [isFlatCombination] using flat), rfl⟩
  | const c => exact ⟨isCombination_of_isSimple rfl (by simpa [isFlatCombination] using flat), rfl⟩
  | node h args =>
    simp only [isFlatCombination, Bool.and_eq_true, beq_iff_eq, decide_eq_true_eq, List.all_eq_true] at flat
    obtain ⟨⟨rfl, many⟩, leaves⟩ := flat
    refine ⟨isCombination_node.mpr ⟨rfl, many, fun arg member => isCombination_of_isSimple (leaves arg member).1
      (leaves arg member).2⟩, ?_⟩
    refine isCanonical_node.mpr ⟨isReduced_iff.mpr ⟨fun _ arg member => ?_, by simp [laws]⟩, fun arg member => ?_⟩
    all_goals
      have leaf := (leaves arg member).1
      cases arg with
      | var v | const c => simp [head?, isCanonical, everyNode_var, everyNode_const]
      | node g inner => cases leaf

open ExpAC

/-- One variable is the sum of another with a constant, and the double of a third. -/
def Problem.evenSum : Problem :=
  let f := Signature.binary.f
  let x : Variable := ⟨⟨0⟩, .default⟩
  let y : Variable := ⟨⟨1⟩, .default⟩
  let z : Variable := ⟨⟨2⟩, .default⟩
  let a : Constant := ⟨⟨0⟩, .default⟩
  ⟨[⟨.var z, .node f [.var x, .const a]⟩, ⟨.var z, .node f [.var y, .var y]⟩]⟩

end Equational
