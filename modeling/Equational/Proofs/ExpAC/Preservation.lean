import Equational.Proofs.AC.Atom
import Equational.Proofs.ExpAC.Branching
import Equational.Proofs.ExpAC.Cancellation
import Equational.Proofs.ExpAC.Neat

/-! No rule loses a solution. Where a state has a solution, a rule that applies gives a state with a
solution that agrees with it on the variables in use, and no rule fails. Here are the rules that draw
no fresh variables: they take equal powers, pairs and free applications apart, and rename. -/

namespace Equational

namespace ExpAC

variable {signature : Signature} {known : FunctionSymbol → Prop} {m m' : Variable → Term} {n n' : Nat} {s t u : Term}

def RegularOn (signature : Signature) (m : Variable → Term) : Prop :=
  ∀ v, v.sort = signature.f.range → (m v).isRegular signature.f = true

def Extends (n : Nat) (m m' : Variable → Term) : Prop :=
  ∀ v, v.id.index < n → m' v = m v

structure IsFlat (signature : Signature) (t : Term) : Prop where
  arguments : ∀ arg ∈ t.arguments, arg.isSimple = true
  regular : t.isRegular signature.f = true

structure IsDefinition (signature : Signature) (e : Equation) : Prop where
  named : e.lhs.isVariable = true
  left : e.lhs.isRegular signature.f = true
  right : IsFlat signature e.rhs

namespace State

/-- Definitions without repetition, and eliminations of variables in favour of variables that remain. -/
structure Tidy (signature : Signature) (n : Nat) (state : State) : Prop where
  definitions : ∀ e ∈ state.definitions.equations, IsDefinition signature e
  proper : ∀ e ∈ state.definitions.equations, e.isTrivial = false
  apart : state.definitions.equations.Pairwise fun e d => (e == d) = false
  bound : ∀ p ∈ state.solved.bindings, p.1.sort = signature.f.range ∧ p.2.isRegular signature.f = true
  solved : ∀ p ∈ state.solved.bindings, ∃ y, p.2 = .var y ∧ state.Usable n y

private theorem isDefinition_iff_isNaming {e : Equation} :
    IsDefinition signature e ↔ IsNaming (·.isRegular signature.f = true) e :=
  ⟨fun definition => ⟨definition.named, definition.left, definition.right.arguments, definition.right.regular⟩,
    fun naming => ⟨naming.named, naming.left, naming.shallow, naming.right⟩⟩

theorem tidy_iff_neat {state : State} : state.Tidy signature n ↔ state.Neat (·.isRegular signature.f = true) n := by
  constructor
  · intro tidy
    exact ⟨fun e member => isDefinition_iff_isNaming.mp (tidy.definitions e member), tidy.proper, tidy.apart,
      fun p member => ⟨Term.isRegular_var.mpr (tidy.bound p member).1, (tidy.bound p member).2⟩, tidy.solved⟩
  · intro neat
    exact ⟨fun e member => isDefinition_iff_isNaming.mpr (neat.definitions e member), neat.proper, neat.apart,
      fun p member => ⟨Term.isRegular_var.mp (neat.bound p member).1, (neat.bound p member).2⟩, neat.solved⟩

theorem Tidy.mono {state : State} (tidy : state.Tidy signature n) (grown : n ≤ n') : state.Tidy signature n' :=
  { tidy with
    solved p inside := by
      obtain ⟨y, image, usable⟩ := tidy.solved p inside
      exact ⟨y, image, usable.mono grown⟩ }

/-- The state is tidy, and the assignment solves it by regular terms. -/
structure SolvedBy (signature : Signature) (n : Nat) (state : State) (m : Variable → Term) : Prop where
  tidy : state.Tidy signature n
  holds : state.Holds signature m
  regular : RegularOn signature m

def Inherits (signature : Signature) (n : Nat) (m : Variable → Term) (n' : Nat) (next : State) : Prop :=
  ∃ m', next.SolvedBy signature n' m' ∧ Extends n m m'

end State

section Assignments

theorem Extends.refl (n : Nat) (m : Variable → Term) : Extends n m m :=
  fun _ _ => rfl

theorem Extends.trans {m'' : Variable → Term} (first : Extends n m m') (grown : n ≤ n') (second : Extends n' m' m'') :
    Extends n m m'' := by
  intro v below
  rw [second v (by omega), first v below]

theorem Extends.update {v : Variable} (extended : Extends n m m') (fresh : n ≤ v.id.index) (t : Term) :
    Extends n m (Function.update m' v t) := by
  intro w below
  have other : w ≠ v := by
    rintro rfl
    omega
  rw [Function.update_of_ne other, extended w below]

section Congruence

variable {E : Term → Term → Prop} (congruence : Term.Congruence E) (extended : Extends n m m')
include congruence extended

/-- Terms over old variables have the same instances. -/
theorem Extends.instantiate (old : ∀ v ∈ t.vars, v.id.index < n) : E (t.instantiate m') (t.instantiate m) := by
  refine congruence.instantiate fun v occurs => ?_
  rw [extended v (old v occurs)]
  exact congruence.refl _

theorem Extends.holdsIn {e : Equation} (left : ∀ v ∈ e.lhs.vars, v.id.index < n)
    (right : ∀ v ∈ e.rhs.vars, v.id.index < n) (holds : e.HoldsIn E m) : e.HoldsIn E m' := by
  have first := extended.instantiate congruence left
  have second := extended.instantiate congruence right
  exact congruence.trans first (congruence.trans holds (congruence.symm second))

end Congruence

theorem RegularOn.update {v : Variable} (regular : RegularOn signature m) (value : t.isRegular signature.f = true) :
    RegularOn signature (Function.update m v t) := by
  intro w sort
  by_cases same : w = v
  · rw [same, Function.update_self]
    exact value
  · rw [Function.update_of_ne same]
    exact regular w sort

theorem RegularOn.instantiate (laws : signature.f.theory = .associativeCommutative) (values : RegularOn signature m)
    (regular : t.isRegular signature.f = true) : (t.instantiate m).isRegular signature.f = true :=
  Term.isRegular_instantiate laws regular fun v occurs => values v (Term.sort_of_mem_vars regular occurs)

theorem RegularOn.instance_node {h : FunctionSymbol} {args : List Term}
    (laws : signature.f.theory = .associativeCommutative)
    (values : RegularOn signature m) (regular : (Term.node h args).isRegular signature.f = true) :
    (Term.node h (args.map (Term.instantiate m))).isRegular signature.f = true := by
  obtain ⟨symbol, range, many, each⟩ := Term.isRegular_node.mp regular
  refine Term.isRegular_node.mpr ⟨symbol, range, by simpa using many, fun arg member => ?_⟩
  obtain ⟨origin, present, rfl⟩ := List.mem_map.mp member
  exact values.instantiate laws (each origin present)

end Assignments

section Flatness

theorem isSimple_of_isVariable (variable' : t.isVariable = true) : t.isSimple = true := by
  cases t with
  | var v => rfl
  | const c | node h args => cases variable'

theorem exists_of_partsOf {symbol : FunctionSymbol} (found : Signature.partsOf symbol t = some (s, u)) :
    ∃ h : FunctionSymbol, t = .node h [s, u] ∧ h.id = symbol.id := by
  simp only [Signature.partsOf] at found
  split at found
  next h x y =>
    split at found
    next same =>
      cases found
      exact ⟨h, rfl, by simpa using same⟩
    next => cases found
  next => cases found

structure IsLeaf (signature : Signature) (t : Term) : Prop where
  simple : t.isSimple = true
  regular : t.isRegular signature.f = true

theorem isLeaf_var {v : Variable} (sort : v.sort = signature.f.range) : IsLeaf signature (.var v) :=
  ⟨rfl, Term.isRegular_var.mpr sort⟩

theorem IsFlat.leaf {h : FunctionSymbol} {args : List Term} (flat : IsFlat signature (.node h args)) :
    ∀ arg ∈ args, IsLeaf signature arg :=
  fun arg member => ⟨flat.arguments arg member, (Term.isRegular_node.mp flat.regular).2.2.2 arg member⟩

theorem IsFlat.parts {symbol : FunctionSymbol} (flat : IsFlat signature t)
    (found : Signature.partsOf symbol t = some (s, u)) :
    IsLeaf signature s ∧ IsLeaf signature u := by
  obtain ⟨h, rfl, _⟩ := exists_of_partsOf found
  exact ⟨flat.leaf s (by simp), flat.leaf u (by simp)⟩

private theorem isFlat_app {h : FunctionSymbol} {args : List Term}
    (laws : signature.f.theory = .associativeCommutative)
    (symbol : h = signature.f ∨ h.theory = .free) (range : h.range = signature.f.range)
    (many : h = signature.f → 2 ≤ args.length) (leaves : ∀ arg ∈ args, IsLeaf signature arg) :
    IsFlat signature (.app h args) := by
  rw [Term.app_of_isSimple (Term.ne_idempotent_of_regular laws symbol) fun arg member => (leaves arg member).simple]
  exact ⟨fun arg member => (leaves arg member).simple,
    Term.isRegular_node.mpr ⟨symbol, range, many, fun arg member => (leaves arg member).regular⟩⟩

variable (sorted : signature.OneSorted)
include sorted

theorem isFlat_pair {h : FunctionSymbol} (symbol : h = signature.exp ∨ h = signature.g ∨ h = signature.f)
    (left : IsLeaf signature s) (right : IsLeaf signature t) : IsFlat signature (.app h [s, t]) := by
  have leaves : ∀ arg ∈ [s, t], IsLeaf signature arg := by
    intro arg member
    rcases List.mem_pair.mp member with rfl | rfl
    · exact left
    · exact right
  rcases symbol with rfl | rfl | rfl
  · exact isFlat_app sorted.f (.inr sorted.exp) sorted.expRange (by simp) leaves
  · exact isFlat_app sorted.f (.inr sorted.g) sorted.gRange (by simp) leaves
  · exact isFlat_app sorted.f (.inl rfl) rfl (by simp) leaves

/-- The instance of a flat application is an application of regular terms. -/
theorem IsFlat.instance_node {h : FunctionSymbol} {args : List Term} (flat : IsFlat signature (.node h args))
    (values : RegularOn signature m) : (Term.node h (args.map (Term.instantiate m))).isRegular signature.f = true :=
  values.instance_node sorted.f flat.regular

end Flatness

namespace State

section Steps

variable {state next : State}

/-- Equal instances of leaves can be stated as definitions. -/
theorem exists_orient_holds (lawful : signature.Lawful) (left : IsLeaf signature s) (right : IsLeaf signature t)
    (equal : EqualModulo signature (s.instantiate m) (t.instantiate m)) :
    ∃ add, orient s t = .ok add ∧ ∀ e ∈ add, IsDefinition signature e ∧ e.HoldsModulo signature m := by
  obtain ⟨add, oriented⟩ := exists_orient left.simple right.simple fun c d constant constant' => by
    subst constant constant'
    exact Term.const.inj (EqualModulo.eq_of_isSimple lawful rfl rfl equal)
  have definitions := isNaming_orient (P := fun t => t.isRegular signature.f = true) ⟨left.simple, left.regular⟩
    ⟨right.simple, right.regular⟩ oriented
  have holds := (holdsIn_orient_iff (EqualModulo.congruence signature) oriented).mpr equal
  exact ⟨add, oriented, fun e member => ⟨isDefinition_iff_isNaming.mpr (definitions e member), holds e member⟩⟩

section Pairs

variable (sorted : signature.OneSorted) {h : FunctionSymbol}
  (symbol : h = signature.exp ∨ h = signature.g ∨ h = signature.f)
  (defined : IsLeaf signature u) (left : IsLeaf signature s) (right : IsLeaf signature t)
  (equal : EqualModulo signature (u.instantiate m) (.app h [s.instantiate m, t.instantiate m]))
include sorted symbol defined left right

private theorem isDefinition_pair (named : u.isVariable = true) : IsDefinition signature ⟨u, .app h [s, t]⟩ :=
  ⟨named, defined.regular, isFlat_pair sorted symbol left right⟩

include equal

/-- A leaf with the value of an application of leaves can be defined by the application. -/
theorem define_pair (values : RegularOn signature m) : define u (.app h [s, t]) = .ok ⟨u, .app h [s, t]⟩ ∧
    IsDefinition signature ⟨u, .app h [s, t]⟩ ∧ (⟨u, .app h [s, t]⟩ : Equation).HoldsModulo signature m := by
  have holds : (⟨u, .app h [s, t]⟩ : Equation).HoldsModulo signature m :=
    equal.trans (.symm (.instantiate_pair h s t m))
  cases u with
  | node g inner => cases defined.simple
  | var v => exact ⟨rfl, isDefinition_pair sorted symbol defined left right rfl, holds⟩
  | const c =>
    have flat := isFlat_pair sorted symbol left right
    have kept : h = signature.f ∨ h.theory = .free := by
      rcases symbol with rfl | rfl | rfl
      · exact .inr sorted.exp
      · exact .inr sorted.g
      · exact .inl rfl
    rw [Term.app_of_isSimple (Term.ne_idempotent_of_regular sorted.f kept)
      (by simp [left.simple, right.simple])] at flat
    exact absurd equal.symm (EqualModulo.ne_of_isSimple sorted rfl (flat.instance_node sorted values))

end Pairs

theorem equal_of_mem_pairs (holds : state.Holds signature m) {e₁ e₂ : Equation} (listed : (e₁, e₂) ∈ state.pairs) :
    EqualModulo signature (e₁.rhs.instantiate m) (e₂.rhs.instantiate m) :=
  (holds_iff_holdsIn.mp holds).of_mem_pairs (EqualModulo.congruence signature) listed

private theorem tidy_revise {add : List Equation} (tidy : state.Tidy signature n) (grown : n ≤ n')
    (remove : List Equation)
    (definitions : ∀ e ∈ add, IsDefinition signature e) : (state.revise remove add).Tidy signature n' :=
  tidy_iff_neat.mpr ((tidy_iff_neat.mp tidy).revise grown remove fun e member => isDefinition_iff_isNaming.mp
    (definitions e member))

/-- A revision by definitions that hold inherits the solution. -/
theorem inherits_revise {remove add : List Equation} (proper : state.Proper known n)
    (solved : state.SolvedBy signature n m)
    (grown : n ≤ n') (extended : Extends n m m') (regular : RegularOn signature m')
    (definitions : ∀ e ∈ add, IsDefinition signature e ∧ e.HoldsModulo signature m') :
    Inherits signature n m n' (state.revise remove add) := by
  refine ⟨m', ⟨tidy_revise solved.tidy grown remove fun e member => (definitions e member).1, ⟨?_, ?_⟩,
    regular⟩, extended⟩
  · intro e member
    rcases Problem.mem_insertAll member with kept | new
    · have old := mem_of_mem_foldl_erase kept
      have sides := proper.definitions e old
      exact extended.holdsIn (EqualModulo.congruence signature) (fun v occurs => (sides.1.vars v occurs).1)
        (fun v occurs => (sides.2.vars v occurs).1)
        (solved.holds.definitions e old)
    · exact (definitions e (List.mem_of_mem_filter new)).2
  · intro v
    change EqualModulo signature (m' v) ((state.solved.image v).instantiate m')
    rcases state.solved.image_mem_or v with bound | ⟨_, free⟩
    · obtain ⟨y, image, usable⟩ := solved.tidy.solved _ bound
      have value := solved.holds.solved v
      simp only at image
      rw [image] at value ⊢
      rw [extended v (proper.domain v (Substitution.mem_domain_iff.mpr ⟨_, bound⟩))]
      exact value.trans (by rw [Term.instantiate, Term.instantiate, extended y usable.1]; exact .refl _)
    · rw [free]
      exact .refl _

end Steps

section Rules

variable {state : State} (sorted : signature.OneSorted) (within : signature.Within known)
  (proper : state.Proper known n) (solved : state.SolvedBy signature n m)

def Keeps (signature : Signature) (n : Nat) (m : Variable → Term) (outcome : Except Failure (Option State)) : Prop :=
  ∃ result, outcome = .ok result ∧ ∀ next, result = some next → Inherits signature n m n next

private theorem keeps_none : Keeps signature n m (.ok none) :=
  ⟨none, rfl, nofun⟩

structure IsPlain (signature : Signature) (known : FunctionSymbol → Prop) (n : Nat) (state : State) (t : Term) : Prop
    extends IsLeaf signature t where
  fits : t.Fits known (state.Usable n)

structure Powers.Solved (signature : Signature) (known : FunctionSymbol → Prop) (n : Nat) (state : State)
    (m : Variable → Term) (p : Powers) : Prop where
  base₁ : IsPlain signature known n state p.base₁
  exponent₁ : IsPlain signature known n state p.exponent₁
  base₂ : IsPlain signature known n state p.base₂
  exponent₂ : IsPlain signature known n state p.exponent₂
  equal : EqualModulo signature (signature.power (p.base₁.instantiate m) (p.exponent₁.instantiate m))
    (signature.power (p.base₂.instantiate m) (p.exponent₂.instantiate m))

section Powers

variable {p : Powers}

private theorem Powers.Solved.isLeaf (powers : p.Solved signature known n state m) (part : Part) :
    IsLeaf signature (p.part₁ part) ∧ IsLeaf signature (p.part₂ part) := by
  cases part with
  | base => exact ⟨powers.base₁.toIsLeaf, powers.base₂.toIsLeaf⟩
  | exponent => exact ⟨powers.exponent₁.toIsLeaf, powers.exponent₂.toIsLeaf⟩

private theorem Powers.Solved.cancel (powers : p.Solved signature known n state m) (sorted : signature.OneSorted)
    (regular : RegularOn signature m) (shared : Part) (same : (p.part₁ shared == p.part₂ shared) = true) :
    EqualModulo signature ((p.part₁ shared.other).instantiate m) ((p.part₂ shared.other).instantiate m) := by
  have value {t : Term} (plain : IsPlain signature known n state t) := regular.instantiate sorted.f plain.regular
  have back : EqualModulo signature ((p.part₂ shared).instantiate m) ((p.part₁ shared).instantiate m) :=
    .of_shape (Term.instantiate_congr (Term.beq_iff_shape.mp same) m).symm
  cases shared with
  | base =>
    exact .cancel_base sorted (value powers.exponent₁) (value powers.exponent₂)
      (powers.equal.trans (.pair _ back (.refl _)))
  | exponent =>
    exact .cancel_exponent sorted (value powers.base₁) (value powers.base₂)
      (powers.equal.trans (.pair _ (.refl _) back))

include within proper solved

theorem solved_of_mem_powerPairs (member : p ∈ state.powerPairs signature) : p.Solved signature known n state m := by
  obtain ⟨listed, left, right⟩ := of_mem_powerPairs member
  have parts := listed_of_mem_powerPairs within proper member
  have inside := (mem_pairsOf listed).1.subset
  obtain ⟨base₁, exponent₁⟩ := (solved.tidy.definitions p.first (inside (by simp))).right.parts left
  obtain ⟨base₂, exponent₂⟩ := (solved.tidy.definitions p.second (inside (by simp))).right.parts right
  have equal := equal_of_mem_pairs solved.holds listed
  rw [parts.first.instance', parts.second.instance'] at equal
  exact ⟨⟨base₁, parts.first.left⟩, ⟨exponent₁, parts.first.right⟩, ⟨base₂, parts.second.left⟩,
    ⟨exponent₂, parts.second.right⟩, equal⟩

include sorted

theorem keeps_mergePowers (shared : Part) : Keeps signature n m (state.mergePowers signature shared) := by
  rcases mergePowers_cases signature state shared with ⟨none, _⟩ | ⟨p, member, same, step⟩
  · rw [none]
    exact keeps_none
  · have powers := solved_of_mem_powerPairs within proper solved member
    have others := powers.cancel sorted solved.regular shared same
    obtain ⟨first, second⟩ := powers.isLeaf shared.other
    obtain ⟨add, oriented, definitions⟩ := exists_orient_holds sorted.toLawful first second others
    rw [step, oriented]
    refine ⟨_, rfl, fun next same => ?_⟩
    cases same
    exact inherits_revise proper solved (Nat.le_refl n) (.refl n m) solved.regular definitions

theorem keeps_mergePairs : Keeps signature n m (state.mergePairs signature) := by
  rcases mergePairs_cases signature state with ⟨none, _⟩ | ⟨e₁, e₂, u₁, v₁, u₂, v₂, listed, first, second, step⟩
  · rw [none]
    exact keeps_none
  · have inside := (mem_pairsOf listed).1.subset
    have left := parts_of_partsOf within.consistent within.g (proper.definitions e₁ (inside (by simp))).2 first
    have right := parts_of_partsOf within.consistent within.g (proper.definitions e₂ (inside (by simp))).2 second
    obtain ⟨leaf₁, leaf₂⟩ := (solved.tidy.definitions e₁ (inside (by simp))).right.parts first
    obtain ⟨leaf₃, leaf₄⟩ := (solved.tidy.definitions e₂ (inside (by simp))).right.parts second
    have equal := equal_of_mem_pairs solved.holds listed
    rw [left.instance', right.instance'] at equal
    have value {t : Term} (leaf : IsLeaf signature t) := solved.regular.instantiate sorted.f leaf.regular
    obtain ⟨firsts, seconds⟩ := equal.of_pair sorted (by simp [value leaf₁, value leaf₂, value leaf₃, value leaf₄])
    obtain ⟨add₁, oriented₁, definitions₁⟩ := exists_orient_holds sorted.toLawful leaf₁ leaf₃ firsts
    obtain ⟨add₂, oriented₂, definitions₂⟩ := exists_orient_holds sorted.toLawful leaf₂ leaf₄ seconds
    rw [step, oriented₁, oriented₂]
    refine ⟨_, rfl, fun next same => ?_⟩
    cases same
    exact inherits_revise proper solved (Nat.le_refl n) (.refl n m) solved.regular
      (List.forall_mem_append.mpr ⟨definitions₁, definitions₂⟩)

end Powers

private theorem exists_orientAll_holds (lawful : signature.Lawful) {xs ys : List Term}
    (left : ∀ x ∈ xs, IsLeaf signature x) (right : ∀ y ∈ ys, IsLeaf signature y)
    (equal : List.Forall₂ (fun x y => EqualModulo signature (x.instantiate m) (y.instantiate m)) xs ys) :
    ∃ added, (xs.zip ys).mapM (fun p => orient p.1 p.2) = .ok added ∧
      ∀ e ∈ added.flatten, IsDefinition signature e ∧ e.HoldsModulo signature m := by
  obtain ⟨added, oriented⟩ := exists_orientAll (fun x member => (left x member).simple)
    (fun y member => (right y member).simple)
    (equal.imp fun x y same c d constant constant' => by
      subst constant constant'
      exact Term.const.inj (EqualModulo.eq_of_isSimple lawful rfl rfl same))
  have definitions := isNaming_orientAll (P := fun t => t.isRegular signature.f = true)
    (fun x member => ⟨(left x member).simple, (left x member).regular⟩)
    (fun y member => ⟨(right y member).simple, (right y member).regular⟩) oriented
  have holds := (holdsIn_orientAll_iff (EqualModulo.congruence signature) equal.length_eq oriented).mpr equal
  exact ⟨added, oriented, fun e member => ⟨isDefinition_iff_isNaming.mpr (definitions e member), holds e member⟩⟩

include sorted within proper solved in
theorem keeps_decompose : Keeps signature n m (state.decompose signature) := by
  rcases decompose_cases signature state with ⟨none, _⟩ | ⟨e₁, e₂, h₁, xs, h₂, ys, listed, root₁, root₂, ids,
    other, step⟩
  · rw [none]
    exact keeps_none
  · have inside := (mem_pairsOf listed).1.subset
    obtain rfl := root_eq_of_mem_pairs proper within.consistent listed root₁ root₂ ids
    have left := (solved.tidy.definitions e₁ (inside (by simp))).right
    have right := (solved.tidy.definitions e₂ (inside (by simp))).right
    have equal := equal_of_mem_pairs solved.holds listed
    rw [root₁] at left equal
    rw [root₂] at right equal
    rw [Term.instantiate_node, Term.instantiate_node] at equal
    simp only [Signature.isReserved, Bool.or_eq_false_iff, beq_eq_false_iff_ne, ne_eq] at other
    have apart {h : FunctionSymbol} (ids : h₁.id ≠ h.id) : h₁ ≠ h := fun same => ids (congrArg FunctionSymbol.id same)
    have free := (Term.isRegular_node.mp left.regular).1.resolve_left (apart other.2)
    have arguments := EqualModulo.of_free sorted free (apart other.1.1) (apart other.1.2)
      (left.instance_node sorted solved.regular) (right.instance_node sorted solved.regular) equal
    rw [List.forall₂_map_left_iff, List.forall₂_map_right_iff] at arguments
    obtain ⟨added, oriented, definitions⟩ := exists_orientAll_holds sorted.toLawful left.leaf right.leaf arguments
    rw [step, if_neg (by simp [arguments.length_eq]), oriented]
    refine ⟨_, rfl, fun next same => ?_⟩
    cases same
    exact inherits_revise proper solved (Nat.le_refl n) (.refl n m) solved.regular definitions

include sorted proper solved in
theorem keeps_eliminate : Keeps signature n m state.eliminate := by
  have sort {v : Variable} {t : Term} (same : t = .var v) (regular : t.isRegular signature.f = true) :
      v.sort = signature.f.range :=
    Term.isRegular_var.mp (same ▸ regular)
  obtain ⟨result, applied⟩ := exists_eliminate fun e listed x y left right =>
    (sort right (solved.tidy.definitions e listed).right.regular).trans
      (sort left (solved.tidy.definitions e listed).left).symm
  refine ⟨result, applied, fun next same => ?_⟩
  have agrees := agrees_eliminate (EqualModulo.congruence signature)
    (Term.nameable_isRegular sorted.f).flattenable proper
    (tidy_iff_neat.mp solved.tidy) (same ▸ applied)
  exact ⟨m,
    ⟨tidy_iff_neat.mpr agrees.neat, holds_iff_holdsIn.mpr ((agrees.holds m).mpr (holds_iff_holdsIn.mp solved.holds)),
    solved.regular⟩, .refl n m⟩

end Rules

end State

end ExpAC

end Equational
