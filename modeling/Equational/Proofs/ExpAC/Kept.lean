import Equational.Proofs.ExpAC.Revision
import Equational.Proofs.Term.Stable

/-! Properties that all terms of a run keep. Rules, alternatives and the flat form take
applications apart, rebuild them of as many arguments, put two terms under one symbol, draw
fresh variables and rename variables. A property that survives these holds throughout a run when
it holds of the problem. -/

namespace Equational

namespace ExpAC

open Search

variable {signature : Signature} {start n n' : Nat} {Q : Nat → Term → Prop} {state next : State} {session : Session}
  {fails : Failure → Prop} {s t u : Term} {out : Problem}

/-- Kept by everything that is done to a term. The property may depend on the number of names in
use, of which there were so many at the start. -/
structure Kept (start : Nat) (Q : Nat → Term → Prop) : Prop where
  later : ∀ {n n' : Nat} {t : Term}, n ≤ n' → Q n t → Q n' t
  fresh : ∀ {n : Nat} (sort : SortId), start ≤ n → Q (n + 1) (.var ⟨⟨n⟩, sort⟩)
  argument : ∀ {n : Nat} {h : FunctionSymbol} {args : List Term}, Q n (.node h args) → ∀ arg ∈ args, Q n arg
  rebuild : ∀ {n : Nat} {h : FunctionSymbol} {args flat : List Term}, Q n (.node h args) → flat.length = args.length →
    (∀ arg ∈ flat, Q n arg) → Q n (.app h flat)
  pair : ∀ {n : Nat} (h : FunctionSymbol) {s t : Term}, Q n s → Q n t → Q n (.app h [s, t])

structure State.All (start : Nat) (Q : Nat → Term → Prop) (n : Nat) (state : State) : Prop where
  older : start ≤ n
  sides : EverySide (Q n) state.definitions.equations
  solved : ∀ p ∈ state.solved.bindings, Q n (.var p.1) ∧ Q n p.2

theorem kept_true : Kept 0 fun _ _ => True :=
  ⟨fun _ _ => trivial, fun _ _ => trivial, fun _ _ _ => trivial, fun _ _ _ => trivial, fun _ _ _ _ _ => trivial⟩

namespace Kept

variable (kept : Kept start Q)
include kept

theorem everySide_later {equations : List Equation} (sides : EverySide (Q n) equations) (grown : n ≤ n') :
    EverySide (Q n') equations :=
  EverySide.imp sides fun holds => kept.later grown holds

private theorem ends_fresh (older : start ≤ session.names) (sort : SortId) :
    (freshVariable sort).Ends session (fun v after => Q after.names (.var v)) fails := by
  refine ends_freshVariable sort fun after names => ?_
  rw [names]
  exact kept.fresh sort older

private theorem stable (n : Nat) : Term.Stable (Q n) :=
  ⟨kept.argument, kept.rebuild⟩

end Kept

namespace State

namespace All

theorem later (all : state.All start Q n) (kept : Kept start Q) (grown : n ≤ n') : state.All start Q n' where
  older := Nat.le_trans all.older grown
  sides := kept.everySide_later all.sides grown
  solved p member := ⟨kept.later grown (all.solved p member).1, kept.later grown (all.solved p member).2⟩

private theorem revise {remove add : List Equation} (all : state.All start Q n) (added : EverySide (Q n) add) :
    (state.revise remove add).All start Q n where
  older := all.older
  sides e member := by
    rcases Problem.mem_insertAll member with old | new
    · exact all.sides e (mem_of_mem_foldl_erase old)
    · exact added e (List.mem_of_mem_filter new)
  solved := all.solved

end All

section Steps

variable (kept : Kept start Q) (all : state.All start Q n)
include kept all

private theorem Material.holds (grown : n ≤ n') (material : Material signature state n n' t) : Q n' t := by
  cases material with
  | argument listed root member =>
    have holds := (all.sides _ listed).2
    rw [root] at holds
    exact kept.later grown (kept.argument holds t member)
  | fresh drawn => exact kept.later drawn.newer (kept.fresh _ (Nat.le_trans all.older drawn.older))

private theorem Definable.holds (grown : n ≤ n') (definable : Definable signature state n n' t) : Q n' t := by
  cases definable with
  | defined listed => exact kept.later grown (all.sides _ listed).1
  | var material => exact material.holds kept all grown

private theorem Made.sides {e : Equation} (grown : n ≤ n') (made : Made signature state n n' e) :
    Q n' e.lhs ∧ Q n' e.rhs := by
  cases made with
  | leaf left right => exact ⟨left.holds kept all grown, right.holds kept all grown⟩
  | pair _ left first second =>
    exact ⟨left.holds kept all grown, kept.pair _ (first.holds kept all grown) (second.holds kept all grown)⟩

private theorem Revised.keeps (grown : n ≤ n') (revised : Revised signature state n n' next) :
    next.All start Q n' := by
  obtain ⟨remove, add, rfl, made⟩ := revised
  exact (all.later kept grown).revise fun e member => (made e member).sides kept all grown

private theorem all_eliminate (applied : state.eliminate = .ok (some next)) : next.All start Q n := by
  rcases eliminate_cases state with ⟨none, _⟩ | ⟨e, listed, x, y, left, right, step⟩
  · cases none.symm.trans applied
  · obtain ⟨binding, bound, result⟩ := exists_of_bind_eq_ok (step.symm.trans applied)
    cases result
    obtain ⟨eliminated, target⟩ := all.sides e listed
    rw [left] at eliminated
    rw [right] at target
    have bindings : ∀ p ∈ binding.bindings, Q n (.var p.1) ∧ Q n p.2 := by
      intro p member
      obtain ⟨renames, domain⟩ := Substitution.singleton_var bound
      have same := (domain p.1 (Substitution.mem_domain_iff.mpr ⟨p.2, member⟩)).1
      have image := renames p.1
      rw [if_pos same, Substitution.image_of_mem member] at image
      exact ⟨same ▸ eliminated, image ▸ target⟩
    have range : ∀ u ∈ binding.range, Q n u := by
      intro u member
      obtain ⟨v, inside⟩ := Substitution.exists_of_mem_range member
      exact (bindings _ inside).2
    refine ⟨all.older, fun d member => ?_, fun p member => ?_⟩
    · have origin := Problem.mem_ofList member
      obtain ⟨d', inside, rfl⟩ := List.mem_map.mp (List.mem_of_mem_filter origin)
      have sides := all.sides d' (List.mem_of_mem_filter inside)
      exact ⟨(kept.stable n).apply range sides.1, (kept.stable n).apply range sides.2⟩
    · rcases Substitution.mem_bindings_compose.mp member with ⟨u, inside, value, _⟩ | ⟨inside, _⟩
      · have earlier := all.solved _ inside
        exact ⟨earlier.1, value ▸ (kept.stable n).apply range earlier.2⟩
      · exact bindings p inside

end Steps

variable (kept : Kept start Q) (all : state.All start Q session.names)
include kept all

/-- Every rule keeps the property. -/
theorem ends_apply_all (rule : Rule) : (state.apply signature rule).Ends session
    (fun result after => ∀ next, result = some next → next.All start Q after.names) (fun _ => True) := by
  by_cases eliminates : rule = .eliminate
  · subst eliminates
    exact ends_ofExcept (fun result applied next same => all_eliminate kept all (same ▸ applied)) fun _ _ => trivial
  · exact (ends_apply_revised eliminates).mono
      (fun _ _ grown revised next same => (revised next same).keeps kept all grown)
      fun _ _ => trivial

/-- Every alternative keeps the property. -/
theorem ends_alternatives_all : (state.alternatives signature).Ends session (fun result after => ∀ alternatives,
    result = some alternatives → ∀ next, .ok next ∈ alternatives → next.All start Q after.names) (fun _ => True) :=
  ends_alternatives_revised.mono (fun _ _ grown revised alternatives same next member =>
    Revised.keeps kept all grown (revised alternatives same (.ok next) member)) fun _ failed => failed

end State

section Flattening

mutual

private theorem ends_flatten_all (kept : Kept start Q) (t : Term) (out : Problem) (session : Session)
    (older : start ≤ session.names)
    (holds : Q session.names t) (sides : EverySide (Q session.names) out.equations) : (flatten t out).Ends session
      (fun result after => Q after.names result.1 ∧ EverySide (Q after.names) result.2.equations) fails :=
  match t with
  | .var v => ends_pure ⟨holds, sides⟩
  | .const c => ends_pure ⟨holds, sides⟩
  | .node h args => by
    have inside := ends_flattenArguments_all kept args out session older (kept.argument holds) sides
    simp only [flatten]
    refine inside.bind ?_
    intro result after grown ⟨lengths, flat, sides⟩
    exact ends_pure ⟨kept.rebuild (kept.later grown holds) lengths flat, sides⟩
termination_by structural t

theorem ends_flattenArguments_all (kept : Kept start Q) (args : List Term) (out : Problem) (session : Session)
    (older : start ≤ session.names) (holds : ∀ arg ∈ args, Q session.names arg)
    (sides : EverySide (Q session.names) out.equations) : (flattenArguments args out).Ends session
      (fun result after => result.1.length = args.length ∧ (∀ arg ∈ result.1, Q after.names arg) ∧
        EverySide (Q after.names) result.2.equations) fails :=
  match args with
  | [] => ends_pure ⟨rfl, List.forall_mem_nil _, sides⟩
  | .var v :: args => by
    obtain ⟨first, rest⟩ := List.forall_mem_cons.mp holds
    have later := ends_flattenArguments_all kept args out session older rest sides
    rw [flattenArguments]
    · refine later.bind ?_
      intro result after grown ⟨lengths, flat, sides⟩
      exact ends_pure ⟨by simp [lengths], List.forall_mem_cons.mpr ⟨kept.later grown first, flat⟩, sides⟩
    · simp
  | .const c :: args => by
    obtain ⟨first, rest⟩ := List.forall_mem_cons.mp holds
    have later := ends_flattenArguments_all kept args out session older rest sides
    rw [flattenArguments]
    · refine later.bind ?_
      intro result after grown ⟨lengths, flat, sides⟩
      exact ends_pure ⟨by simp [lengths], List.forall_mem_cons.mpr ⟨kept.later grown first, flat⟩, sides⟩
    · simp
  | .node h inner :: args => by
    obtain ⟨first, rest⟩ := List.forall_mem_cons.mp holds
    have whole := ends_flatten_all kept (.node h inner) out session older first sides
    have later := fun out session => ends_flattenArguments_all kept args out session
    simp only [flattenArguments]
    refine whole.bind ?_
    intro result middle grown ⟨flat, sides⟩
    refine (kept.ends_fresh (by omega) h.range).bind ?_
    intro v drawn grown₁ name
    have sides' : EverySide (Q drawn.names) (result.2.insert ⟨.var v, result.1⟩).equations :=
      everySide_insert (kept.everySide_later sides grown₁) name (kept.later grown₁ flat)
    refine (later _ drawn (by omega) (fun arg member => kept.later (by omega) (rest arg member)) sides').bind ?_
    intro result' after grown₂ ⟨lengths, flat', sides''⟩
    exact ends_pure ⟨by simp [lengths], List.forall_mem_cons.mpr ⟨kept.later grown₂ name, flat'⟩, sides''⟩
termination_by structural args

end

variable (kept : Kept start Q)
include kept

private theorem ends_flattenEquation_all {e : Equation} (older : start ≤ session.names) (left : Q session.names e.lhs)
    (right : Q session.names e.rhs) (sides : EverySide (Q session.names) out.equations) :
    (flattenEquation e out).Ends session
      (fun result after => EverySide (Q after.names) result.equations) (fun _ => True) := by
  obtain ⟨s, t⟩ := e
  dsimp only at left right
  have defines {x : Variable} {t : Term} (name : Q session.names (.var x)) (holds : Q session.names t) :
      (flattenEquation.define out x t).Ends session (fun result after => EverySide (Q after.names) result.equations)
        (fun _ => True) := by
    simp only [flattenEquation.define]
    refine (ends_flatten_all kept t out session older holds sides).bind fun result after grown flat => ends_pure ?_
    exact everySide_insert flat.2 (kept.later grown name) flat.1
  simp only [flattenEquation]
  by_cases sorts : (s.sort != t.sort) = true
  · simp only [sorts]
    exact ends_throw_bind trivial
  · simp only [sorts, Bool.false_eq_true, ↓reduceIte]
    split
    next _ x => exact defines left right
    next s x _ => exact defines right left
    next =>
      refine (kept.ends_fresh older _).bind fun v begun grown name => ?_
      refine (ends_flatten_all kept _ out begun (by omega) (kept.later grown left)
        (kept.everySide_later sides grown)).bind
        fun first middle grown₁ flat₁ => ?_
      refine (ends_flatten_all kept _ _ middle (by omega) (kept.later (by omega) right) flat₁.2).bind
        fun second after grown₂ flat₂ => ends_pure ?_
      have name' := kept.later (Nat.le_trans grown₁ grown₂) name
      exact everySide_insert (everySide_insert flat₂.2 name' (kept.later grown₂ flat₁.1)) name' flat₂.1

/-- The flat form of a problem keeps the property. -/
theorem ends_purify_all {problem : Problem} (older : start ≤ session.names)
    (holds : EverySide (Q session.names) problem.equations) :
    (purify problem).Ends session (fun state after => state.All start Q after.names) (fun _ => True) := by
  simp only [purify]
  refine (ends_foldlM (I := fun out after => session.names ≤ after.names ∧ EverySide (Q after.names) out.equations)
    ⟨Nat.le_refl _, everySide_nil⟩ ?_).bind ?_
  · intro e member out during grown ⟨_, sides⟩
    have given := holds e (List.mem_of_mem_filter member)
    refine (ends_flattenEquation_all kept (by omega) (kept.later grown given.1)
      (kept.later grown given.2) sides).mono ?_
      fun _ _ => trivial
    exact fun result after later flat => ⟨by omega, flat⟩
  · intro flat after grown ⟨_, sides⟩
    exact ends_pure ⟨by omega, everySide_filter sides _, List.forall_mem_nil _⟩

end Flattening

end ExpAC

end Equational
