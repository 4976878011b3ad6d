import Equational.ExpAC.Consistency
import Mathlib.Logic.Relation

/-! Cycles through definitions. The search for a variable that depends on itself uses up the definitions of a
variable when it visits it, and still finds every path: of a path that comes back to the variable, what follows
its last visit is a path as well. -/

namespace Equational.ExpAC

open Relation

section Reachability

variable {dependencies : List Dependency} {v w target : Variable} {pending : List Variable}

/-- One of the definitions of the first variable uses the second. -/
def Uses (dependencies : List Dependency) (v w : Variable) : Prop :=
  w ∈ usesOf v dependencies

private theorem uses_iff : Uses dependencies v w ↔ ∃ d ∈ dependencies, d.defined = v ∧ w ∈ d.uses := by
  simp [Uses, usesOf, and_assoc]

private theorem uses_without_iff {u : Variable} :
    Uses (without u dependencies) v w ↔ v ≠ u ∧ Uses dependencies v w := by
  simp only [uses_iff, without, List.mem_filter, bne_iff_ne, ne_eq]
  constructor
  · rintro ⟨d, ⟨listed, other⟩, rfl, used⟩
    exact ⟨other, d, listed, rfl, used⟩
  · rintro ⟨other, d, listed, rfl, used⟩
    exact ⟨d, ⟨listed, other⟩, rfl, used⟩

private theorem exists_path_without (u : Variable) (path : ReflTransGen (Uses dependencies) v target) :
    ReflTransGen (Uses (without u dependencies)) v target ∨
      ∃ w ∈ usesOf u dependencies, ReflTransGen (Uses (without u dependencies)) w target := by
  induction path using ReflTransGen.head_induction_on with
  | refl => exact .inl .refl
  | @head v w step _ ih =>
    rcases ih with direct | visited
    · by_cases same : v = u
      · exact .inr ⟨w, same ▸ step, direct⟩
      · exact .inl (.head (uses_without_iff.mpr ⟨same, step⟩) direct)
    · exact .inr visited

/-- The search reaches exactly what there is a path to. -/
theorem reaches_iff : reaches target dependencies pending = true ↔
    ∃ v ∈ pending, ReflTransGen (Uses dependencies) v target := by
  fun_induction reaches target dependencies pending with
  | case1 => simp
  | case2 dependencies u pending ih =>
    rw [Bool.or_eq_true, beq_iff_eq, ih]
    constructor
    · rintro (rfl | ⟨v, member, path⟩)
      · exact ⟨u, List.mem_cons_self .., .refl⟩
      · have path' : ReflTransGen (Uses dependencies) v target :=
          ReflTransGen.mono (fun _ _ step => (uses_without_iff.mp step).2) _ _ path
        rcases List.mem_append.mp member with used | later
        · exact ⟨u, List.mem_cons_self .., .head used path'⟩
        · exact ⟨v, List.mem_cons_of_mem u later, path'⟩
    · rintro ⟨v, member, path⟩
      rcases exists_path_without u path with direct | ⟨w, used, path'⟩
      · rcases List.mem_cons.mp member with rfl | later
        · -- The definitions of the variable itself are gone, so the path cannot leave it.
          rcases direct.cases_head with same | ⟨w, step, _⟩
          · exact .inl same
          · exact absurd rfl (uses_without_iff.mp step).1
        · exact .inr ⟨v, List.mem_append_right _ later, direct⟩
      · exact .inr ⟨w, List.mem_append_left _ used, path'⟩

end Reachability

namespace State

variable {state : State} {x y : Variable}

/-- The second variable occurs in an application or in whatever else but a variable defines the first. -/
def DependsOn (state : State) (x y : Variable) : Prop :=
  ∃ e ∈ state.definitions.equations, e.lhs = .var x ∧ e.rhs.isVariable = false ∧ y ∈ e.rhs.vars

private theorem mem_dependencies {d : Dependency} {rhs : Term} : (d, rhs) ∈ state.dependencies ↔
    ⟨.var d.defined, rhs⟩ ∈ state.definitions.equations ∧ rhs.isVariable = false ∧ d.uses = rhs.vars := by
  rw [dependencies, List.mem_filterMap]
  constructor
  · rintro ⟨⟨lhs, rhs⟩, stated, found⟩
    cases lhs with
    | const c | node f args => cases found
    | var x =>
      dsimp only at found
      split at found
      next => cases found
      next proper =>
        cases found
        exact ⟨stated, Bool.not_eq_true _ ▸ proper, rfl⟩
  · rintro ⟨stated, proper, uses⟩
    refine ⟨_, stated, ?_⟩
    rw [proper, ← uses]
    rfl

private theorem uses_dependencies_iff : Uses (state.dependencies.map Prod.fst) x y ↔ state.DependsOn x y := by
  rw [uses_iff]
  constructor
  · rintro ⟨_, member, rfl, used⟩
    obtain ⟨⟨d, rhs⟩, listed, rfl⟩ := List.mem_map.mp member
    obtain ⟨stated, proper, uses⟩ := mem_dependencies.mp listed
    exact ⟨_, stated, rfl, proper, uses ▸ used⟩
  · rintro ⟨⟨lhs, rhs⟩, stated, rfl, proper, occurs⟩
    have listed : (⟨x, rhs.vars⟩, rhs) ∈ state.dependencies := mem_dependencies.mpr ⟨stated, proper, rfl⟩
    exact ⟨_, List.mem_map_of_mem listed, rfl, occurs⟩

/-- The check fails at a definition through which its variable depends on itself. -/
theorem cycle_of_checkAcyclic {failure : Failure} (failed : state.checkAcyclic = .error failure) :
    ∃ x t, failure = .occursCheck x t ∧ ⟨.var x, t⟩ ∈ state.definitions.equations ∧ t.isVariable = false ∧
      ∃ y ∈ t.vars, ReflTransGen state.DependsOn y x := by
  simp only [checkAcyclic] at failed
  split at failed
  next d t found =>
    cases failed
    obtain ⟨stated, proper, uses⟩ := mem_dependencies.mp (List.mem_of_find?_eq_some found)
    have reached : reaches d.defined (state.dependencies.map Prod.fst) d.uses =
        true := by simpa using List.find?_some found
    obtain ⟨y, used, path⟩ := reaches_iff.mp reached
    refine ⟨d.defined, t, rfl, stated, proper, y, uses ▸ used, ReflTransGen.mono ?_ _ _ path⟩
    exact fun _ _ => uses_dependencies_iff.mp
  next => cases failed

/-- The check passes exactly where no variable depends on itself. -/
theorem checkAcyclic_eq_ok_iff : state.checkAcyclic = .ok () ↔ ∀ x, ¬ TransGen state.DependsOn x x := by
  constructor
  · intro passed x cycle
    obtain ⟨y, ⟨⟨lhs, t⟩, stated, rfl, proper, occurs⟩, path⟩ := TransGen.head'_iff.mp cycle
    have listed : (⟨x, t.vars⟩, t) ∈ state.dependencies := mem_dependencies.mpr ⟨stated, proper, rfl⟩
    have reached : reaches x (state.dependencies.map Prod.fst) t.vars = true :=
      reaches_iff.mpr ⟨y, occurs, ReflTransGen.mono (fun _ _ => uses_dependencies_iff.mpr) _ _ path⟩
    simp only [checkAcyclic] at passed
    split at passed
    next => cases passed
    next none => exact List.find?_eq_none.mp none _ listed reached
  · intro acyclic
    cases outcome : state.checkAcyclic with
    | ok => rfl
    | error failure =>
      obtain ⟨x, _, _, stated, proper, y, occurs, path⟩ := cycle_of_checkAcyclic outcome
      exact absurd (TransGen.head' ⟨_, stated, rfl, proper, occurs⟩ path) (acyclic x)

end State

end Equational.ExpAC
