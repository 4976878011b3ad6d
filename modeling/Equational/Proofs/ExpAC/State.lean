import Equational.ExpAC.State
import Equational.Proofs.ExpAC.Congruence
import Equational.Proofs.Problem
import Equational.Proofs.Unification.MostGeneral

/-! Assignments under which a state holds. A revised state refines the state before it when the
definitions taken out follow from those put in and those kept; the solving of a problem is a
chain of such refinements. An eliminated variable never comes back, because fresh variables
are numbered beyond all in use. -/

namespace Equational

theorem everySide_insert {P : Term → Prop} {problem : Problem} {e : Equation} (sides : EverySide P problem.equations)
    (left : P e.lhs) (right : P e.rhs) : EverySide P (problem.insert e).equations := by
  intro d member
  rcases Problem.mem_insert member with old | rfl
  · exact sides d old
  · exact ⟨left, right⟩

namespace Term

/-- In good order, and over variables that pass a test. -/
structure Fits (known : FunctionSymbol → Prop) (usable : Variable → Prop) (t : Term) : Prop where
  formed : t.WellFormed known
  vars : ∀ v ∈ t.vars, usable v

namespace Fits

variable {known : FunctionSymbol → Prop} {usable usable' : Variable → Prop} {t : Term} {h : FunctionSymbol}
  {args : List Term}

theorem var {v : Variable} (passes : usable v) : (Term.var v).Fits known usable where
  formed := (hereditary_wellFormed known).var v
  vars w member := by
    simp only [Term.vars, List.mem_singleton] at member
    exact member ▸ passes

theorem mono (fits : t.Fits known usable) (weaker : ∀ v, usable v → usable' v) : t.Fits known usable' :=
  ⟨fits.formed, fun v member => weaker v (fits.vars v member)⟩

theorem argument (fits : (node h args).Fits known usable) : ∀ arg ∈ args, arg.Fits known usable := fun arg member =>
  ⟨(hereditary_wellFormed known).argument fits.formed arg member, Within.argument fits.vars arg member⟩

theorem app (root : known h) (each : ∀ arg ∈ args, arg.Fits known usable) : (Term.app h args).Fits known usable where
  formed := wellFormed_app root fun arg member => (each arg member).formed
  vars := Within.app h fun arg member => (each arg member).vars

theorem pair {s t : Term} (root : known h) (left : s.Fits known usable) (right : t.Fits known usable) :
    (Term.app h [s, t]).Fits known usable :=
  app root fun arg member => by
    rcases List.mem_pair.mp member with rfl | rfl
    · exact left
    · exact right

end Fits

end Term

namespace ExpAC

namespace State

variable {signature : Signature} {known : FunctionSymbol → Prop} {n n' : Nat} {state next last : State}
  {m : Variable → Term}

def Usable (state : State) (n : Nat) (v : Variable) : Prop :=
  v.id.index < n ∧ v ∉ state.solved.domain

theorem Usable.mono {v : Variable} (usable : state.Usable n v) (grown : n ≤ n') : state.Usable n' v :=
  ⟨by have below := usable.1; omega, usable.2⟩

/-- What every state of a run satisfies when `n` names are in use. -/
structure Proper (known : FunctionSymbol → Prop) (n : Nat) (state : State) : Prop where
  definitions : EverySide (Term.Fits known (state.Usable n)) state.definitions.equations
  range : ∀ t ∈ state.solved.range, t.WellFormed known
  domain : ∀ v ∈ state.solved.domain, v.id.index < n

theorem Proper.mono (proper : state.Proper known n) (grown : n ≤ n') : state.Proper known n' where
  definitions e member :=
    ⟨(proper.definitions e member).1.mono fun _ usable => usable.mono grown,
      (proper.definitions e member).2.mono fun _ usable => usable.mono grown⟩
  range := proper.range
  domain v member := by
    have below := proper.domain v member
    omega

private theorem usable_fresh (domain : ∀ v ∈ state.solved.domain, v.id.index < n) {v : Variable}
    (beyond : n ≤ v.id.index) (below : v.id.index < n') : state.Usable n' v := by
  refine ⟨below, ?_⟩
  intro bound
  have used := domain v bound
  omega

theorem Proper.usable_fresh (proper : state.Proper known n) {v : Variable} (beyond : n ≤ v.id.index)
    (below : v.id.index < n') : state.Usable n' v :=
  State.usable_fresh proper.domain beyond below

theorem Proper.usable (proper : state.Proper known n) :
    ∀ e ∈ state.definitions.equations, ∀ v ∈ e.vars, state.Usable n v := by
  intro e listed v occurs
  have sides := proper.definitions e listed
  exact (List.mem_append.mp occurs).elim (sides.1.vars v) (sides.2.vars v)

structure Holds (signature : Signature) (state : State) (m : Variable → Term) : Prop where
  definitions : ∀ e ∈ state.definitions.equations, e.HoldsModulo signature m
  solved : ∀ v, EqualModulo signature (m v) ((state.solved.image v).instantiate m)

/-- The same, up to an equivalence of terms. -/
structure HoldsIn (E : Term → Term → Prop) (state : State) (m : Variable → Term) : Prop where
  definitions : ∀ e ∈ state.definitions.equations, e.HoldsIn E m
  solved : ∀ v, E (m v) ((state.solved.image v).instantiate m)

theorem holds_iff_holdsIn : state.Holds signature m ↔ state.HoldsIn (EqualModulo signature) m :=
  ⟨fun holds => ⟨holds.definitions, holds.solved⟩, fun holds => ⟨holds.definitions, holds.solved⟩⟩

structure Refines (signature : Signature) (known : FunctionSymbol → Prop) (n : Nat) (state next : State) : Prop where
  proper : next.Proper known n
  holds : ∀ m, next.Holds signature m → state.Holds signature m

theorem Refines.refl (proper : state.Proper known n) : Refines signature known n state state :=
  ⟨proper, fun _ holds => holds⟩

theorem Refines.trans (first : Refines signature known n state next) (second : Refines signature known n' next last) :
    Refines signature known n' state last :=
  ⟨second.proper, fun m holds => first.holds m (second.holds m holds)⟩

theorem mem_of_mem_foldl_erase {remove : List Equation} {problem : Problem} {e : Equation}
    (member : e ∈ (remove.foldl Problem.erase problem).equations) : e ∈ problem.equations := by
  induction remove generalizing problem with
  | nil => exact member
  | cons r remove ih => exact Problem.mem_of_mem_erase (ih member)

private theorem mem_foldl_erase_or {problem : Problem} {e : Equation} (member : e ∈ problem.equations)
    (remove : List Equation) :
    e ∈ (remove.foldl Problem.erase problem).equations ∨ ∃ r ∈ remove, (e == r) = true := by
  induction remove generalizing problem with
  | nil => exact .inl member
  | cons r remove ih =>
    rcases Problem.mem_erase_or member r with kept | same
    · exact (ih kept).imp id fun ⟨r', inside, equal⟩ => ⟨r', List.mem_cons_of_mem r inside, equal⟩
    · exact .inr ⟨r, List.mem_cons_self .., same⟩

theorem proper_revise {add : List Equation} (proper : state.Proper known n) (grown : n ≤ n') (remove : List Equation)
    (fits : EverySide (Term.Fits known (state.Usable n')) add) : (state.revise remove add).Proper known n' := by
  have proper' := proper.mono grown
  refine ⟨?_, proper'.range, proper'.domain⟩
  intro e member
  rcases Problem.mem_insertAll member with kept | new
  · exact proper'.definitions e (mem_of_mem_foldl_erase kept)
  · exact fits e (List.mem_of_mem_filter new)

section Revision

variable {E : Term → Term → Prop} (congruence : Term.Congruence E) {remove add : List Equation}
include congruence

/-- What a revised state says: the definitions kept, those put in, and the eliminations. -/
theorem holdsIn_revise_iff : (state.revise remove add).HoldsIn E m ↔
    (∀ e ∈ (remove.foldl Problem.erase state.definitions).equations, e.HoldsIn E m) ∧ (∀ e ∈ add, e.HoldsIn E m) ∧
      ∀ v, E (m v) ((state.solved.image v).instantiate m) := by
  have parts : (∀ d ∈ (state.revise remove add).definitions.equations, d.HoldsIn E m) ↔ _ :=
    Problem.holdsIn_insertAll_iff congruence
  constructor
  · rintro ⟨definitions, solved⟩
    obtain ⟨kept, new⟩ := parts.mp definitions
    refine ⟨kept, fun e member => ?_, solved⟩
    cases trivial : e.isTrivial with
    | true => exact Equation.holdsIn_of_isTrivial congruence trivial
    | false => exact new e (List.mem_filter.mpr ⟨member, by simp [trivial]⟩)
  · rintro ⟨kept, added, solved⟩
    exact ⟨parts.mpr ⟨kept, fun e member => added e (List.mem_of_mem_filter member)⟩, solved⟩

/-- A revised state holds only where the state does, if what is kept and what is put in imply what is taken out. -/
theorem holdsIn_of_revise (implied : (∀ e ∈ (remove.foldl Problem.erase state.definitions).equations, e.HoldsIn E m) →
    (∀ e ∈ add, e.HoldsIn E m) → ∀ e ∈ remove, e.HoldsIn E m) (holds : (state.revise remove add).HoldsIn E m) :
    state.HoldsIn E m := by
  obtain ⟨kept, added, solved⟩ := (holdsIn_revise_iff congruence).mp holds
  have removed := implied kept added
  refine ⟨fun e member => ?_, solved⟩
  rcases mem_foldl_erase_or member remove with still | ⟨r, inside, same⟩
  · exact kept e still
  · exact (removed r inside).congr congruence (BEq.symm same)

omit congruence in
theorem refines_revise (proper : state.Proper known n) (grown : n ≤ n')
    (fits : EverySide (Term.Fits known (state.Usable n')) add)
    (implied : ∀ m, (∀ e ∈ (remove.foldl Problem.erase state.definitions).equations, e.HoldsModulo signature m) →
      (∀ e ∈ add, e.HoldsModulo signature m) → ∀ e ∈ remove, e.HoldsModulo signature m) :
    Refines signature known n' state (state.revise remove add) where
  proper := proper_revise proper grown remove fits
  holds m holds :=
    holds_iff_holdsIn.mpr (holdsIn_of_revise (EqualModulo.congruence signature) (implied m)
      (holds_iff_holdsIn.mp holds))

end Revision

end State

end ExpAC

end Equational
