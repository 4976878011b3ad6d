import Equational.Proofs.Term.Instance

/-! What holds of every application inside a term: canonical shape, the symbols in use, and the
sorts of the arguments. Building and instantiating keep all three. -/

namespace Equational.Term

mutual

/-- Whether every application in the term passes a test on its symbol and arguments. -/
def everyNode (test : FunctionSymbol → List Term → Bool) : Term → Bool
  | var _ => true
  | const _ => true
  | node f args => test f args && everyNodeList test args

def everyNodeList (test : FunctionSymbol → List Term → Bool) : List Term → Bool
  | [] => true
  | arg :: args => everyNode test arg && everyNodeList test args

end

section EveryNode

variable {test : FunctionSymbol → List Term → Bool}

@[simp] theorem everyNode_var (v : Variable) : (var v).everyNode test = true := by
  simp [everyNode]

@[simp] theorem everyNode_const (c : Constant) : (const c).everyNode test = true := by
  simp [everyNode]

private theorem everyNodeList_iff {args : List Term} :
    everyNodeList test args = true ↔ ∀ arg ∈ args, arg.everyNode test = true := by
  induction args with
  | nil => simp [everyNodeList]
  | cons arg args ih => simp [everyNodeList, ih]

theorem everyNode_node {f : FunctionSymbol} {args : List Term} :
    (node f args).everyNode test = true ↔ test f args = true ∧ ∀ arg ∈ args, arg.everyNode test = true := by
  rw [everyNode, Bool.and_eq_true, everyNodeList_iff]

theorem everyNode_mono {test' : FunctionSymbol → List Term → Bool}
    (weaker : ∀ f args, test f args = true → test' f args = true)
    {t : Term} (passes : t.everyNode test = true) : t.everyNode test' = true := by
  induction t with
  | var v | const c => simp
  | node f args ih =>
    obtain ⟨root, inside⟩ := everyNode_node.mp passes
    exact everyNode_node.mpr ⟨weaker f args root, fun arg member => ih arg member (inside arg member)⟩

end EveryNode

def isEqualPair : List Term → Bool
  | [s, t] => s == t
  | _ => false

/-- No argument that an associative symbol would absorb, and no pair that an idempotent one
would collapse. -/
def isReduced (f : FunctionSymbol) (args : List Term) : Bool :=
  !(f.theory.isAssociative && args.any fun arg => arg.head? == some f) &&
    !(f.theory == .idempotent && isEqualPair args)

def isCanonical (t : Term) : Bool :=
  t.everyNode isReduced

theorem isReduced_iff {f : FunctionSymbol} {args : List Term} :
    isReduced f args = true ↔ (f.theory.isAssociative = true → ∀ arg ∈ args, arg.head? ≠ some f) ∧
      (f.theory = .idempotent → isEqualPair args = false) := by
  simp [isReduced, Classical.or_iff_not_imp_left]

theorem isCanonical_node {f : FunctionSymbol} {args : List Term} :
    (node f args).isCanonical = true ↔ isReduced f args = true ∧ ∀ arg ∈ args, arg.isCanonical = true :=
  everyNode_node

theorem spliced_eq_flatMap (f : FunctionSymbol) (args : List Term) :
    spliced f args = args.flatMap fun arg => if arg.head? = some f then arg.arguments else [arg] := by
  fun_induction spliced f args with
  | case1 => rfl
  | case2 g inner args same ih => simp_all [head?, arguments]
  | case3 g inner args different ih => simp_all [head?]
  | case4 arg args leaf ih =>
    have other : arg.head? ≠ some f := by
      cases arg with
      | node g inner => exact absurd rfl (leaf g inner)
      | var v => simp [head?]
      | const c => simp [head?]
    rw [List.flatMap_cons, if_neg other, ih, List.singleton_append]

theorem mem_spliced {f : FunctionSymbol} {args : List Term} {t : Term} (member : t ∈ spliced f args) :
    (t ∈ args ∧ t.head? ≠ some f) ∨ ∃ inner, node f inner ∈ args ∧ t ∈ inner := by
  rw [spliced_eq_flatMap, List.mem_flatMap] at member
  obtain ⟨arg, inside, found⟩ := member
  split at found
  next root =>
    obtain ⟨inner, rfl⟩ := exists_of_head? root
    exact .inr ⟨_, inside, found⟩
  next root =>
    rw [List.mem_singleton] at found
    exact .inl ⟨found ▸ inside, found ▸ root⟩

/-- Building an application of canonical arguments gives a canonical term. -/
theorem isCanonical_app (f : FunctionSymbol) {args : List Term} (each : ∀ arg ∈ args, arg.isCanonical = true) :
    (app f args).isCanonical = true := by
  cases theory : f.theory with
  | free | commutative =>
    simp only [app, theory]
    exact isCanonical_node.mpr ⟨isReduced_iff.mpr (by simp [theory, SymbolTheory.isAssociative]), each⟩
  | associative | associativeCommutative =>
    simp only [app, theory]
    refine isCanonical_node.mpr ⟨isReduced_iff.mpr ⟨?_, by simp [theory]⟩, ?_⟩
    · intro associative arg member
      rcases mem_spliced member with ⟨_, root⟩ | ⟨inner, found, inside⟩
      · exact root
      · exact (isReduced_iff.mp (isCanonical_node.mp (each _ found)).1).1 associative arg inside
    · intro arg member
      rcases mem_spliced member with ⟨kept, _⟩ | ⟨inner, found, inside⟩
      · exact each arg kept
      · exact (isCanonical_node.mp (each _ found)).2 arg inside
  | idempotent =>
    by_cases equal : isEqualPair args = true
    · simp only [isEqualPair] at equal
      split at equal
      next s t =>
        rw [app_pair theory, if_pos equal]
        exact each s (by simp)
      next => cases equal
    · have built : app f args = node f args := by
        by_cases pair : args.length = 2
        · obtain ⟨s, t, rfl⟩ := List.length_eq_two.mp pair
          exact (app_pair theory s t).trans (if_neg equal)
        · exact app_of_length_ne theory pair
      rw [built]
      refine isCanonical_node.mpr ⟨isReduced_iff.mpr ⟨?_, fun _ => by simpa using equal⟩, each⟩
      simp [theory, SymbolTheory.isAssociative]

theorem isCanonical_instantiate {m : Variable → Term} {t : Term}
    (each : ∀ v ∈ t.vars, (m v).isCanonical = true) : (t.instantiate m).isCanonical = true := by
  induction t with
  | var v => exact each v (by simp [vars])
  | const c => rfl
  | node f args ih =>
    rw [instantiate_node]
    refine isCanonical_app f ?_
    intro instance' member
    obtain ⟨arg, inside, rfl⟩ := List.mem_map.mp member
    exact ih arg inside fun v occurs => each v (mem_varsList.mpr ⟨arg, inside, occurs⟩)

private theorem spliced_of_forall_ne {f : FunctionSymbol} {args : List Term}
    (other : ∀ arg ∈ args, arg.head? ≠ some f) : spliced f args = args := by
  rw [spliced_eq_flatMap, List.flatMap_congr fun arg member => if_neg (other arg member)]
  exact List.flatMap_singleton' args

/-- Where nothing is absorbed and nothing collapses, building an application and writing it down are the same. -/
theorem app_of_isReduced {f : FunctionSymbol} {args : List Term} (reduced : isReduced f args = true) :
    app f args = node f args := by
  obtain ⟨unabsorbed, uncollapsed⟩ := isReduced_iff.mp reduced
  cases theory : f.theory with
  | free | commutative => simp [app, theory]
  | associative | associativeCommutative =>
    simp [app, theory, spliced_of_forall_ne (unabsorbed (by simp [theory, SymbolTheory.isAssociative]))]
  | idempotent =>
    by_cases pair : args.length = 2
    · obtain ⟨s, t, rfl⟩ := List.length_eq_two.mp pair
      have different : (s == t) = false := uncollapsed theory
      simp [app_pair theory, different]
    · exact app_of_length_ne theory pair

theorem shape_app_of_isReduced {f : FunctionSymbol} {args : List Term} (reduced : isReduced f args = true) :
    (app f args).shape = (node f args).shape :=
  congrArg shape (app_of_isReduced reduced)

/-- Rebuilding a canonical term changes nothing. -/
theorem instantiate_var {t : Term} (canonical : t.isCanonical = true) : t.instantiate var = t := by
  induction t with
  | var v | const c => rfl
  | node f args ih =>
    obtain ⟨reduced, each⟩ := isCanonical_node.mp canonical
    have same : args.map (instantiate var) = args.map id := List.map_congr_left fun arg member =>
      ih arg member (each arg member)
    rw [instantiate_node, same, List.map_id, app_of_isReduced reduced]

theorem shape_instantiate_var {t : Term} (canonical : t.isCanonical = true) : (t.instantiate var).shape = t.shape :=
  congrArg shape (instantiate_var canonical)

mutual

def symbols : Term → List FunctionSymbol
  | var _ => []
  | const _ => []
  | node f args => f :: symbolsList args

def symbolsList : List Term → List FunctionSymbol
  | [] => []
  | arg :: args => arg.symbols ++ symbolsList args

end

private theorem mem_symbolsList {g : FunctionSymbol} {args : List Term} :
    g ∈ symbolsList args ↔ ∃ arg ∈ args, g ∈ arg.symbols := by
  induction args with
  | nil => simp [symbolsList]
  | cons arg args ih => simp [symbolsList, ih]

theorem mem_symbols_node {g f : FunctionSymbol} {args : List Term} :
    g ∈ (node f args).symbols ↔ g = f ∨ ∃ arg ∈ args, g ∈ arg.symbols := by
  rw [symbols, List.mem_cons, mem_symbolsList]

theorem mem_symbols_app {g f : FunctionSymbol} {args : List Term} (member : g ∈ (app f args).symbols) :
    g = f ∨ ∃ arg ∈ args, g ∈ arg.symbols := by
  simp only [app] at member
  split at member
  case h_1 | h_2 =>
    rcases mem_symbols_node.mp member with same | ⟨arg, spliced, inside⟩
    · exact .inl same
    · rcases mem_spliced spliced with ⟨kept, _⟩ | ⟨inner, found, deeper⟩
      · exact .inr ⟨arg, kept, inside⟩
      · exact .inr ⟨_, found, mem_symbols_node.mpr (.inr ⟨arg, deeper, inside⟩)⟩
  case h_3 =>
    split at member
    next s t =>
      split at member
      · exact .inr ⟨s, by simp, member⟩
      · exact mem_symbols_node.mp member
    next => exact mem_symbols_node.mp member
  case h_4 | h_5 => exact mem_symbols_node.mp member

private theorem mem_symbols_instantiate {g : FunctionSymbol} {m : Variable → Term} {t : Term}
    (member : g ∈ (t.instantiate m).symbols) : g ∈ t.symbols ∨ ∃ v ∈ t.vars, g ∈ (m v).symbols := by
  induction t with
  | var v => exact .inr ⟨v, by simp [vars], member⟩
  | const c => simp [instantiate, symbols] at member
  | node f args ih =>
    rw [instantiate_node] at member
    rcases mem_symbols_app member with same | ⟨arg, inside, found⟩
    · exact .inl (mem_symbols_node.mpr (.inl same))
    · obtain ⟨origin, present, rfl⟩ := List.mem_map.mp inside
      rcases ih origin present found with old | ⟨v, occurs, new⟩
      · exact .inl (mem_symbols_node.mpr (.inr ⟨origin, present, old⟩))
      · exact .inr ⟨v, mem_varsList.mpr ⟨origin, present, occurs⟩, new⟩

def Within (known : Variable → Prop) (t : Term) : Prop :=
  ∀ v ∈ t.vars, known v

section Within

variable {known : Variable → Prop} {f : FunctionSymbol} {args : List Term}

theorem Within.argument (within : (node f args).Within known) : ∀ arg ∈ args, arg.Within known :=
  fun arg member v occurs => within v (mem_varsList.mpr ⟨arg, member, occurs⟩)

theorem Within.app (f : FunctionSymbol) (each : ∀ arg ∈ args, arg.Within known) : (app f args).Within known := by
  intro v occurs
  obtain ⟨arg, member, inside⟩ := mem_varsList.mp (mem_vars_app occurs)
  exact each arg member v inside

end Within

/-- A property that variables have and that passes to arguments and to instances. -/
structure Hereditary (P : Term → Prop) : Prop where
  var : ∀ v, P (.var v)
  argument : ∀ {f : FunctionSymbol} {args : List Term}, P (.node f args) → ∀ arg ∈ args, P arg
  instantiate : ∀ {m : Variable → Term} {t : Term}, P t → (∀ v, P (m v)) → P (t.instantiate m)

section Closure

variable {test : FunctionSymbol → List Term → Bool} (splices : ∀ {f : FunctionSymbol} {args : List Term},
  f.theory.isAssociative = true → (∀ arg ∈ args, arg.everyNode test = true) → test f args = true →
    test f (spliced f args) = true)
include splices

/-- Building an application keeps a test that splicing keeps. -/
theorem everyNode_app {f : FunctionSymbol} {args : List Term} (root : test f args = true)
    (each : ∀ arg ∈ args, arg.everyNode test = true) : (app f args).everyNode test = true := by
  have plain : (node f args).everyNode test = true := everyNode_node.mpr ⟨root, each⟩
  simp only [app]
  split
  case h_1 law | h_2 law =>
    refine everyNode_node.mpr ⟨splices (by simp [law, SymbolTheory.isAssociative]) each root, fun arg member => ?_⟩
    rcases mem_spliced member with ⟨kept, _⟩ | ⟨inner, found, inside⟩
    · exact each arg kept
    · exact (everyNode_node.mp (each _ found)).2 arg inside
  case h_3 =>
    split
    next s t =>
      split
      · exact each s (by simp)
      · exact plain
    next => exact plain
  case h_4 | h_5 => exact plain

/-- A test that counts arguments passes to instances. -/
theorem hereditary_everyNode (counts : ∀ {f : FunctionSymbol} {xs ys : List Term}, xs.length = ys.length →
    test f xs = true → test f ys = true) : Hereditary fun t => t.everyNode test = true where
  var _ := everyNode_var _
  argument holds := (everyNode_node.mp holds).2
  instantiate {m t} holds each := by
    induction t with
    | var v => exact each v
    | const c => exact everyNode_const _
    | node g args ih =>
      obtain ⟨root, inside⟩ := everyNode_node.mp holds
      rw [instantiate_node]
      refine everyNode_app splices (counts (by simp) root) ?_
      intro arg member
      obtain ⟨origin, present, rfl⟩ := List.mem_map.mp member
      exact ih origin present (inside origin present)

end Closure

theorem hereditary_isCanonical : Hereditary fun t => t.isCanonical = true where
  var _ := rfl
  argument canonical := (isCanonical_node.mp canonical).2
  instantiate _ each := isCanonical_instantiate fun v _ => each v

def Over (known : FunctionSymbol → Prop) (t : Term) : Prop :=
  ∀ g ∈ t.symbols, known g

theorem over_node {known : FunctionSymbol → Prop} {f : FunctionSymbol} {args : List Term} :
    (node f args).Over known ↔ known f ∧ ∀ arg ∈ args, arg.Over known := by
  constructor
  · intro spelled
    refine ⟨spelled f (by simp [symbols]), ?_⟩
    intro arg member g occurs
    exact spelled g (mem_symbols_node.mpr (.inr ⟨arg, member, occurs⟩))
  · intro ⟨root, each⟩ g occurs
    rcases mem_symbols_node.mp occurs with rfl | ⟨arg, member, inside⟩
    · exact root
    · exact each arg member g inside

theorem hereditary_over (known : FunctionSymbol → Prop) : Hereditary (Over known) where
  var v g occurs := by simp [symbols] at occurs
  argument spelled := (over_node.mp spelled).2
  instantiate spelled each g occurs := by
    rcases mem_symbols_instantiate occurs with old | ⟨v, _, new⟩
    · exact spelled g old
    · exact each v g new

structure WellFormed (known : FunctionSymbol → Prop) (t : Term) : Prop where
  canonical : t.isCanonical = true
  spelled : t.Over known

theorem hereditary_wellFormed (known : FunctionSymbol → Prop) : Hereditary (WellFormed known) where
  var v := ⟨rfl, (hereditary_over known).var v⟩
  argument formed arg member :=
    ⟨hereditary_isCanonical.argument formed.canonical arg member,
      (hereditary_over known).argument formed.spelled arg member⟩
  instantiate formed each :=
    ⟨hereditary_isCanonical.instantiate formed.canonical fun v => (each v).canonical,
      (hereditary_over known).instantiate formed.spelled fun v => (each v).spelled⟩

theorem wellFormed_app {known : FunctionSymbol → Prop} {f : FunctionSymbol} {args : List Term} (root : known f)
    (each : ∀ arg ∈ args, arg.WellFormed known) : (app f args).WellFormed known where
  canonical := isCanonical_app f fun arg member => (each arg member).canonical
  spelled g occurs := by
    rcases mem_symbols_app occurs with rfl | ⟨arg, member, inside⟩
    · exact root
    · exact (each arg member).spelled g inside

theorem sort_app {f : FunctionSymbol} (kept : f.theory ≠ .idempotent) (args : List Term) :
    (app f args).sort = f.range := by
  rw [← sort_shape, shape_app kept, sort_shape, sort]

/-- Instances by terms of the right sorts have the sort of the term, unless symbols collapse. -/
theorem sort_instantiate {m : Variable → Term} {t : Term} (sorted : ∀ v, (m v).sort = v.sort)
    (kept : ∀ g ∈ t.symbols, g.theory ≠ .idempotent) : (t.instantiate m).sort = t.sort := by
  cases t with
  | var v => exact sorted v
  | const c => rfl
  | node f args => rw [instantiate_node, sort_app (kept f (by simp [symbols])), sort]

theorem app_of_free {f : FunctionSymbol} (free : f.theory = .free) (args : List Term) : app f args = node f args := by
  simp [app, free]

theorem shape_node_of_free {f : FunctionSymbol} (free : f.theory = .free) (args : List Term) :
    (node f args).shape = node f (args.map shape) := by
  have ordered : f.theory.isCommutative = false := by simp [free, SymbolTheory.isCommutative]
  rw [shape, shapes_of_not_associative (by simp [free, SymbolTheory.isAssociative])]
  simp [arrange, ordered]

end Equational.Term
