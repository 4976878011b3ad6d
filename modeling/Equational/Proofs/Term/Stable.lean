import Equational.Proofs.Term.Regular
import Equational.Proofs.Unification.Demand

/-! Properties that survive when terms are taken apart and put together again. They pass to
instances under assignments that respect them, and, where they say nothing of a variable but its sort,
to the names that stand for terms. -/

namespace Equational.Term

/-- A property that passes to arguments, and to applications rebuilt of as many arguments. -/
structure Stable (P : Term → Prop) : Prop where
  argument : ∀ {h : FunctionSymbol} {args : List Term}, P (.node h args) → ∀ arg ∈ args, P arg
  rebuild : ∀ {h : FunctionSymbol} {args flat : List Term}, P (.node h args) → flat.length = args.length →
    (∀ arg ∈ flat, P arg) → P (.app h flat)

/-- A property that passes to arguments, to names of the same sort, and to applications rebuilt of as many variables and
constants. -/
structure Flattenable (P : Term → Prop) : Prop where
  argument : ∀ {h : FunctionSymbol} {args : List Term}, P (.node h args) → ∀ arg ∈ args, P arg
  name : ∀ {t : Term} {v : Variable}, P t → v.sort = t.sort → P (.var v)
  rebuild : ∀ {h : FunctionSymbol} {args flat : List Term}, P (.node h args) → flat.length = args.length →
    (∀ arg ∈ flat, arg.isSimple = true ∧ P arg) → P (.app h flat)

/-- A property that says of a term only how many arguments are under each symbol, and admits two of them under any. -/
structure ByArity (P : Term → Prop) : Prop where
  leaf : ∀ {t : Term}, t.isSimple = true → P t
  argument : ∀ {h : FunctionSymbol} {args : List Term}, P (.node h args) → ∀ arg ∈ args, P arg
  rebuild : ∀ {h : FunctionSymbol} {args flat : List Term}, P (.node h args) → flat.length = args.length →
    (∀ arg ∈ flat, arg.isSimple = true) → P (.node h flat)
  pair : ∀ (h : FunctionSymbol) {s t : Term}, s.isSimple = true → t.isSimple = true → P (.node h [s, t])

/-- A stable property that passes to names of the same sort, and of terms whose sort no instance changes. -/
structure Nameable (P : Term → Prop) : Prop extends Stable P where
  name : ∀ {t : Term} {v : Variable}, P t → v.sort = t.sort → P (.var v)
  kept : ∀ {h : FunctionSymbol} {args : List Term}, P (.node h args) → h.theory ≠ .idempotent

def Suits (P : Term → Prop) (m : Variable → Term) : Prop :=
  ∀ v, P (.var v) → P (m v) ∧ (m v).sort = v.sort

section Stable

variable {P : Term → Prop} {t : Term} {m : Variable → Term} (stable : Stable P)
include stable

private theorem Stable.instantiate (images : ∀ v, P (.var v) → P (m v)) (holds : P t) : P (t.instantiate m) := by
  induction t with
  | var v => exact images v holds
  | const c => exact holds
  | node h args ih =>
    rw [instantiate_node]
    refine stable.rebuild holds (List.length_map ..) fun arg member => ?_
    obtain ⟨origin, listed, rfl⟩ := List.mem_map.mp member
    exact ih origin listed (stable.argument holds origin listed)

omit stable in
theorem image_of_range {σ : Substitution} (range : ∀ u ∈ σ.range, P u) (v : Variable) (holds : P (.var v)) :
    P (σ.image v) := by
  rcases σ.image_mem_or v with bound | ⟨_, unbound⟩
  · exact range _ (Substitution.mem_range_of_mem bound)
  · rwa [unbound]

theorem Stable.apply {σ : Substitution} (range : ∀ u ∈ σ.range, P u) (holds : P t) : P (σ.apply t) := by
  rcases σ.apply_eq_or t with same | ⟨_, same⟩
  · rw [same]
    exact stable.instantiate (image_of_range range) holds
  · rwa [same]

theorem Stable.substitutive : Substitutive P :=
  ⟨stable.argument, stable.apply⟩

end Stable

theorem Nameable.flattenable {P : Term → Prop} (nameable : Nameable P) : Flattenable P where
  argument := nameable.argument
  name := nameable.name
  rebuild holds lengths each := nameable.rebuild holds lengths fun arg member => (each arg member).2

section Nameable

variable {P : Term → Prop} {t : Term} {m : Variable → Term} (nameable : Nameable P) (suits : Suits P m)
include nameable suits

/-- An instance has the property, and the sort, of the term. -/
theorem Nameable.instantiate (holds : P t) : P (t.instantiate m) ∧ (t.instantiate m).sort = t.sort := by
  refine ⟨nameable.toStable.instantiate (fun v named => (suits v named).1) holds, ?_⟩
  cases t with
  | var v => exact (suits v holds).2
  | const c => rfl
  | node h args =>
    rw [instantiate_node, sort_app (nameable.kept holds)]
    rfl

omit nameable in
/-- A variable may take the value of any term of its sort with the property. -/
theorem Suits.update {v : Variable} {u : Term} (holds : P u) (sort : u.sort = v.sort) :
    Suits P (Function.update m v u) := by
  intro w named
  by_cases same : w = v
  · subst same
    rw [Function.update_self]
    exact ⟨holds, sort⟩
  · rw [Function.update_of_ne same]
    exact suits w named

end Nameable

section Shallow

variable {h : FunctionSymbol} {args : List Term} {t : Term}

def IsShallow (t : Term) : Prop :=
  ∀ arg ∈ t.arguments, arg.isSimple = true

theorem isShallow_of_isSimple (simple : t.isSimple = true) : t.IsShallow := by
  cases t with
  | var v | const c => simp [IsShallow, arguments]
  | node h args => cases simple

/-- Applications to simple arguments are built as they stand. -/
theorem app_of_isSimple (kept : h.theory ≠ .idempotent) (simple : ∀ arg ∈ args, arg.isSimple = true) :
    app h args = node h args := by
  refine app_of_isReduced (isReduced_iff.mpr ⟨fun _ arg member => ?_, fun collapses => absurd collapses kept⟩)
  have leaf := simple arg member
  cases arg with
  | var v | const c => simp [head?]
  | node g inner => cases leaf

private theorem app_eq_node_or_isSimple (h : FunctionSymbol) (simple : ∀ arg ∈ args, arg.isSimple = true) :
    app h args = node h args ∨ (app h args).isSimple = true := by
  by_cases idempotent : h.theory = .idempotent
  · by_cases pair : args.length = 2
    · obtain ⟨s, t, rfl⟩ := List.length_eq_two.mp pair
      rw [app_pair idempotent]
      split
      · exact .inr (simple s (by simp))
      · exact .inl rfl
    · exact .inl (app_of_length_ne idempotent pair)
  · exact .inl (app_of_isSimple idempotent simple)

theorem isShallow_app (h : FunctionSymbol) (simple : ∀ arg ∈ args, arg.isSimple = true) : (app h args).IsShallow := by
  rcases app_eq_node_or_isSimple h simple with same | leaf
  · rw [same]
    exact simple
  · exact isShallow_of_isSimple leaf

/-- Renamed variables leave a term shallow, with what the flat form keeps. -/
theorem Flattenable.instantiate {P : Term → Prop} {m : Variable → Term} (flattenable : Flattenable P)
    (shallow : t.IsShallow)
    (simple : ∀ v ∈ t.vars, (m v).isSimple = true) (images : ∀ v, P (.var v) → P (m v)) (holds : P t) :
    (t.instantiate m).IsShallow ∧ P (t.instantiate m) := by
  cases t with
  | var v => exact ⟨isShallow_of_isSimple (simple v (by simp [vars])), images v holds⟩
  | const c => exact ⟨isShallow_of_isSimple rfl, holds⟩
  | node h args =>
    have leaves : ∀ arg ∈ args.map (instantiate m), arg.isSimple = true ∧ P arg := by
      intro arg member
      obtain ⟨origin, present, rfl⟩ := List.mem_map.mp member
      have kept := flattenable.argument holds origin present
      have leaf := shallow origin present
      cases origin with
      | var v => exact ⟨simple v (mem_varsList.mpr ⟨_, present, by simp [vars]⟩), images v kept⟩
      | const c => exact ⟨rfl, kept⟩
      | node g inner => cases leaf
    rw [instantiate_node]
    exact ⟨isShallow_app h fun arg member => (leaves arg member).1,
      flattenable.rebuild holds (List.length_map ..) leaves⟩

end Shallow

section Arity

variable {P : Term → Prop} {h : FunctionSymbol} {args : List Term} {s t : Term} (byArity : ByArity P)
include byArity

private theorem ByArity.app (simple : ∀ arg ∈ args, arg.isSimple = true) (holds : P (.node h args)) :
    P (.app h args) := by
  rcases app_eq_node_or_isSimple h simple with same | leaf
  · rwa [same]
  · exact byArity.leaf leaf

theorem ByArity.appPair (h : FunctionSymbol) (left : s.isSimple = true) (right : t.isSimple = true) :
    P (.app h [s, t]) :=
  byArity.app (List.forall_mem_cons.mpr ⟨left, List.forall_mem_singleton.mpr right⟩) (byArity.pair h left right)

theorem ByArity.flattenable : Flattenable P where
  argument := byArity.argument
  name _ _ := byArity.leaf rfl
  rebuild holds lengths each :=
    byArity.app (fun arg member => (each arg member).1)
      (byArity.rebuild holds lengths fun arg member => (each arg member).1)

omit byArity

theorem byArity_true : ByArity fun _ => True :=
  ⟨fun _ => trivial, fun _ _ _ => trivial, fun _ _ _ => trivial, fun _ _ _ _ _ => trivial⟩

theorem byArity_everyNode {test : FunctionSymbol → List Term → Bool}
    (counts : ∀ {h : FunctionSymbol} {xs ys : List Term}, xs.length = ys.length → test h xs = true → test h ys = true)
    (pairs : ∀ h s t, test h [s, t] = true) :
    ByArity fun t => t.everyNode test = true := by
  have leaf {t : Term} (simple : t.isSimple = true) : t.everyNode test = true := by
    cases t with
    | var v => exact everyNode_var v
    | const c => exact everyNode_const c
    | node h args => cases simple
  refine ⟨leaf, fun holds => (everyNode_node.mp holds).2, fun holds lengths each => ?_, fun h s t left right => ?_⟩
  · exact everyNode_node.mpr ⟨counts lengths.symm (everyNode_node.mp holds).1,
      fun arg member => leaf (each arg member)⟩
  · exact everyNode_node.mpr ⟨pairs h s t,
      List.forall_mem_cons.mpr ⟨leaf left, List.forall_mem_singleton.mpr (leaf right)⟩⟩

end Arity

section Instances

variable {f : FunctionSymbol}

theorem nameable_isRegular (laws : f.theory = .associativeCommutative) : Nameable fun t => t.isRegular f = true where
  argument regular := (isRegular_node.mp regular).2.2.2
  rebuild regular lengths each := by
    obtain ⟨symbol, range, many, _⟩ := isRegular_node.mp regular
    exact isRegular_app laws symbol range (by rwa [lengths]) each
  name regular sort := isRegular_var.mpr (sort.trans (sort_of_isRegular regular))
  kept regular := ne_idempotent_of_regular laws (isRegular_node.mp regular).1

theorem stable_isCanonical : Stable fun t => t.isCanonical = true where
  argument canonical := (isCanonical_node.mp canonical).2
  rebuild _ _ each := isCanonical_app _ each

theorem nameable_isFree : Nameable IsFree where
  argument free := (over_node.mp free).2
  rebuild free _ each := by
    obtain ⟨root, _⟩ := over_node.mp free
    rw [app_of_free root]
    exact over_node.mpr ⟨root, each⟩
  name _ _ := (hereditary_over _).var _
  kept free := by simp [(over_node.mp free).1]

end Instances

end Equational.Term
