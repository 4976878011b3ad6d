import Equational.Proofs.ExpAC.Saturation

/-! Branching neither gains nor loses solutions: a state has the solutions of its alternatives. -/

namespace Equational.ExpAC

/-- Among the substitutions that are admitted, the solutions of a state with alternatives are, on its
variables, those of the alternatives that have a flat form. -/
def Exhaustive (admits : Substitution → Prop) (setting : Setting) (state : State) (session : Session) : Prop :=
  ∀ alternatives after, state.alternatives setting.signature session = .ok (some alternatives) after →
    ∀ τ, admits τ → (state.Solution setting.signature τ ↔ ∃ next, .ok next ∈ alternatives ∧
      ∃ τ', admits τ' ∧ next.Solution setting.signature τ' ∧ ∀ v ∈ state.vars, τ'.image v = τ.image v)

/-- The alternatives are exhaustive in every state of a run. -/
theorem Reached.exhaustive {setting : Setting} {problem : Problem} {interner : Interner} {state : State}
    {session : Session} (posed : Posed setting.signature problem interner)
    (reached : Reached setting problem interner state session) :
    Exhaustive (·.IsRegular setting.signature.f) setting state session := by
  intro alternatives after listed τ regular
  have proper := reached.proper posed
  have refines := (State.ends_alternatives posed.within proper).of_ok listed alternatives rfl
  constructor
  · intro solution
    have solved := reached.solvedBy_solution posed regular solution
    obtain ⟨next, member, inherits⟩ :=
      (State.ends_alternatives_inherits posed.sorted posed.within proper solved).of_ok listed alternatives rfl
    exact ⟨next, member,
      State.exists_solution_of_inherits (State.vars_inUse proper solved.tidy)
      (refines _ member next rfl).proper inherits⟩
  · rintro ⟨next, member, τ', _, solution, agree⟩
    have step := refines _ member next rfl
    have holds := step.holds _ ((State.solution_iff step.proper).mp solution)
    exact (State.solution_iff proper).mpr (holds.congr fun v member => (agree v member).symm)

namespace TwoDefinitions

def u : Variable := ⟨⟨0⟩, .default⟩
def y : Variable := ⟨⟨1⟩, .default⟩
def w : Variable := ⟨⟨2⟩, .default⟩
def z : Variable := ⟨⟨3⟩, .default⟩
def x : Variable := ⟨⟨4⟩, .default⟩

/-- Two definitions of one variable, `x = h(u, y)` and `x = exp(w, z)`. -/
def problem (h : FunctionSymbol) : Problem :=
  ⟨[⟨.var x, .node h [.var u, .var y]⟩, ⟨.var x, .node Signature.binary.exp [.var w, .var z]⟩]⟩

def setting (h : FunctionSymbol) : Setting :=
  ⟨{}, .binary, (problem h).vars⟩

def state (h : FunctionSymbol) : State :=
  { definitions := problem h }

def interner (names : List String) : Interner :=
  { Interner.empty with variableTable := ⟨names⟩ }

def session (names : List String) : Session :=
  { interner := interner names, fresh := {} }

end TwoDefinitions

open TwoDefinitions in
theorem Reached.exhaustive_twoDefinitions :
    let names := ["u", "y", "w", "z", "x"]
    (∃ alternatives after, (state Signature.binary.exp).alternatives .binary (session names) =
      .ok (some alternatives) after) ∧
      Exhaustive (·.IsRegular Signature.binary.f) (setting Signature.binary.exp) (state Signature.binary.exp)
        (session names) := by
  intro names
  have posed : Posed .binary (problem Signature.binary.exp) (interner names) :=
    ⟨Signature.oneSorted_binary, by decide, by decide, by decide⟩
  have purified : purify (problem Signature.binary.exp) (session names) =
      .ok (state Signature.binary.exp) (session names) := rfl
  exact ⟨⟨_, _, rfl⟩, Reached.exhaustive posed (.start purified)⟩

section Kinds

/-- What the laws keep of a term of any arity: whether it is a power, and whether its exponent is
written as a combination. -/
inductive Kind where
  | plain
  | combination
  | power (combined : Bool)
  | pair (left right : Kind)
  deriving DecidableEq

namespace Kind

def raise : Kind → Kind → Kind
  | pair left right, exponent => pair (left.raise exponent) (right.raise exponent)
  | power _, _ => power true
  | plain, exponent | combination, exponent => power (exponent = combination)

def ofApp (signature : Signature) (h : FunctionSymbol) : List Kind → Kind
  | [s, t] =>
    if h = signature.exp then s.raise t
    else if h = signature.g then pair s t
    else if h = signature.f then combination
    else if h.theory = .idempotent ∧ s = t then s
    else plain
  | _ => if h = signature.f then combination else plain

private theorem raise_raise (k s t : Kind) : (k.raise s).raise t = k.raise combination := by
  induction k with
  | plain | combination | power combined => rfl
  | pair left right first second => rw [raise, raise, raise, first, second]

private theorem raise_ne_plain (k s : Kind) : k.raise s ≠ plain := by
  cases k <;> simp [raise]

private theorem raise_ne_pair_plain (k s t : Kind) : k.raise s ≠ pair plain t := by
  cases k with
  | plain | combination | power combined => simp [raise]
  | pair left right => simp [raise, raise_ne_plain]

end Kind

mutual

def kind (signature : Signature) : Term → Kind
  | .var _ => .plain
  | .const _ => .plain
  | .node h args => .ofApp signature h (kinds signature args)

def kinds (signature : Signature) : List Term → List Kind
  | [] => []
  | arg :: args => kind signature arg :: kinds signature args

end

private theorem kinds_eq_map (signature : Signature) (args : List Term) :
    kinds signature args = args.map (kind signature) := by
  induction args with
  | nil => rfl
  | cons arg args ih => rw [kinds, ih, List.map_cons]

variable {signature : Signature} (lawful : signature.Lawful)

private theorem kind_node (h : FunctionSymbol) (args : List Term) :
    kind signature (.node h args) = .ofApp signature h (args.map (kind signature)) := by
  rw [kind, kinds_eq_map]

def Kind.interpretation (signature : Signature) : Interpretation Kind where
  ofVariable _ := .plain
  ofConstant _ := .plain
  ofFunction := .ofApp signature

private theorem kind_interpretation (t : Term) : (Kind.interpretation signature).value t = kind signature t := by
  induction t with
  | var v | const c => rfl
  | node h args ih =>
    rw [Interpretation.value_node, List.map_congr_left ih, kind_node]
    rfl

include lawful

private theorem ofApp_of_kept {h : FunctionSymbol} (free : h.theory ≠ .free) (kept : h.theory ≠ .idempotent)
    (ks : List Kind) :
    Kind.ofApp signature h ks = if h = signature.f then .combination else .plain := by
  have notExp : h ≠ signature.exp := fun same => free (same ▸ lawful.exp)
  have notG : h ≠ signature.g := fun same => free (same ▸ lawful.g)
  unfold Kind.ofApp
  split
  · simp [notExp, notG, kept]
  · rfl

private theorem isModel_kinds : IsModel signature (Kind.interpretation signature) where
  absorb {h} associative xs ys zs := by
    obtain ⟨free, kept⟩ := SymbolTheory.ne_of_isAssociative associative
    simp only [Kind.interpretation, ofApp_of_kept lawful free kept]
  permute {h} commutative xs ys _ := by
    obtain ⟨free, kept⟩ := SymbolTheory.ne_of_isCommutative commutative
    simp only [Kind.interpretation, ofApp_of_kept lawful free kept]
  collapse {h} idempotent k := by
    have notExp : h ≠ signature.exp := fun equal => by simp [equal, lawful.exp] at idempotent
    have notG : h ≠ signature.g := fun equal => by simp [equal, lawful.g] at idempotent
    have notF : h ≠ signature.f := fun equal => by simp [equal, lawful.f] at idempotent
    simp [Kind.interpretation, Kind.ofApp, notExp, notG, notF, idempotent]
  power k s t := by
    have combined : Kind.ofApp signature signature.f [s, t] = .combination := by
      rw [ofApp_of_kept lawful (by simp [lawful.f]) (by simp [lawful.f]), if_pos rfl]
    have raised (k s : Kind) : Kind.ofApp signature signature.exp [k, s] = k.raise s := if_pos rfl
    simp only [Kind.interpretation, raised, combined, Kind.raise_raise]
  distribute k s t := by simp [Kind.interpretation, Kind.ofApp, lawful.apart.symm, Kind.raise]

private theorem kind_app (h : FunctionSymbol) (args : List Term) :
    kind signature (.app h args) = .ofApp signature h (args.map (kind signature)) := by
  rw [← kind_interpretation, (isModel_kinds lawful).value_app,
    List.map_congr_left fun arg _ => kind_interpretation arg]
  rfl

private theorem kind_power (s t : Term) :
    kind signature (signature.power s t) = (kind signature s).raise (kind signature t) := by
  rw [Signature.power, kind_app lawful]
  simp [Kind.ofApp]

private theorem kind_pair (s t : Term) :
    kind signature (.app signature.g [s, t]) = .pair (kind signature s) (kind signature t) := by
  have other : signature.g ≠ signature.exp := fun same => lawful.apart same.symm
  rw [kind_app lawful]
  simp [Kind.ofApp, other]

private theorem EqualModulo.kind_eq {s t : Term} (equal : EqualModulo signature s t) :
    kind signature s = kind signature t := by
  rw [← kind_interpretation, equal.value_eq_of_isModel (isModel_kinds lawful), kind_interpretation]

end Kinds

namespace TwoDefinitions

variable {v : Nat → Variable} {next : State} {τ : Substitution}

def branches (h : FunctionSymbol) (v : Nat → Variable) : List State :=
  let exp := Signature.binary.exp
  let f := Signature.binary.f
  [{ definitions := ⟨[⟨.var x, .node exp [.var w, .var z]⟩, ⟨.var u, .node exp [.var w, .var (v 0)]⟩,
      ⟨.var z, .node f [.var (v 0), .var y]⟩]⟩ },
    { definitions := ⟨[⟨.var x, .node h [.var u, .var y]⟩, ⟨.var w, .node exp [.var u, .var (v 1)]⟩,
      ⟨.var y, .node f [.var (v 1), .var z]⟩]⟩ },
    { definitions := ⟨[⟨.var x, .node h [.var u, .var y]⟩, ⟨.var u, .var w⟩, ⟨.var y, .var z⟩]⟩ },
    { definitions := ⟨[⟨.var x, .node exp [.var (v 2), .var (v 3)]⟩, ⟨.var u, .node exp [.var (v 2), .var (v 4)]⟩,
      ⟨.var w, .node exp [.var (v 2), .var (v 5)]⟩, ⟨.var (v 3), .node f [.var y, .var (v 4)]⟩,
      ⟨.var (v 3), .node f [.var z, .var (v 5)]⟩]⟩ }]

private theorem of_mem_branches (member : next ∈ branches Signature.binary.exp v)
    (solution : next.Solution .binary τ) :
    EqualModulo .binary (τ.image u) (Signature.binary.power (τ.image w) (τ.image (v 0))) ∨
    EqualModulo .binary (τ.image w) (Signature.binary.power (τ.image u) (τ.image (v 1))) ∨
    EqualModulo .binary (τ.image u) (τ.image w) ∨
    ∃ b s t, EqualModulo .binary (τ.image u) (Signature.binary.power b s) ∧
      EqualModulo .binary (τ.image w) (Signature.binary.power b t) := by
  have canonical : ∀ next ∈ branches Signature.binary.exp v,
      EverySide (Term.isCanonical · = true) next.definitions.equations ∧ next.solved = .empty := by
    simp only [branches, List.forall_mem_cons, everySide_cons, everySide_nil, List.not_mem_nil, false_implies,
      implies_true, and_true]
    exact ⟨⟨⟨rfl, rfl⟩, ⟨rfl, rfl⟩, rfl, rfl⟩, ⟨⟨rfl, rfl⟩, ⟨rfl, rfl⟩, rfl, rfl⟩, ⟨⟨rfl, rfl⟩, ⟨rfl, rfl⟩, rfl, rfl⟩,
      ⟨rfl, rfl⟩, ⟨rfl, rfl⟩, ⟨rfl, rfl⟩, ⟨rfl, rfl⟩, rfl, rfl⟩
  obtain ⟨sides, solved⟩ := canonical next member
  have holds :=
    ((State.solution_iff_of_canonical sides (by simp [solved, Substitution.empty, Substitution.range])).mp
      solution).definitions
  simp only [branches, List.mem_cons, List.not_mem_nil, or_false] at member
  rcases member with rfl | rfl | rfl | rfl
  · exact .inl (holds ⟨.var u, .node Signature.binary.exp [.var w, .var (v 0)]⟩ (by simp))
  · exact .inr (.inl (holds ⟨.var w, .node Signature.binary.exp [.var u, .var (v 1)]⟩ (by simp)))
  · exact .inr (.inr (.inl (holds ⟨.var u, .var w⟩ (by simp))))
  · exact .inr (.inr (.inr ⟨_, _, _, holds ⟨.var u, .node Signature.binary.exp [.var (v 2), .var (v 4)]⟩ (by simp),
      holds ⟨.var w, .node Signature.binary.exp [.var (v 2), .var (v 5)]⟩ (by simp)⟩))

def drawn (names : List String) : Session :=
  { interner := interner (names ++ ["v_0", "v_1", "v_2", "v_3", "v_4", "v_5"]), fresh := { next := 6 } }

def fresh (names : List String) (i : Nat) : Variable :=
  ⟨⟨names.length + i⟩, .default⟩

private theorem not_exhaustive_of_lost {h : FunctionSymbol} {names : List String} {admits : Substitution → Prop}
    (listed : (state h).alternatives .binary (session names) = .ok (some ((branches h (fresh names)).map .ok))
      (drawn names))
    (admitted : admits τ) (solution : (state h).Solution .binary τ)
    (lost : ∀ next ∈ branches h (fresh names), ∀ τ', next.Solution .binary τ' →
      ¬ ∀ t ∈ (state h).vars, τ'.image t = τ.image t) :
    ¬ Exhaustive admits (setting h) (state h) (session names) := by
  intro exhaustive
  obtain ⟨next, member, τ', _, solution', agree⟩ := (exhaustive _ _ listed τ admitted).mp solution
  obtain ⟨_, inside, same⟩ := List.mem_map.mp member
  cases same
  exact lost next inside τ' solution' agree

private theorem solution_state {h : FunctionSymbol}
    (first : EqualModulo .binary (τ.image x) (τ.apply (.node h [.var u, .var y])))
    (second : EqualModulo .binary (τ.image x) (τ.apply (.node Signature.binary.exp [.var w, .var z]))) :
    (state h).Solution .binary τ := by
  refine .of_definitions rfl ?_
  simp only [state, problem, List.forall_mem_cons, List.not_mem_nil, false_implies, implies_true, and_true,
    Substitution.apply_var]
  exact ⟨first, second⟩

section Counterexamples

def a : Term := .const ⟨⟨0⟩, .default⟩
def b : Term := .const ⟨⟨1⟩, .default⟩
def c : Term := .const ⟨⟨2⟩, .default⟩

/-- Where `x` is not known to the interner, the first fresh exponent is `x` itself, and it is not free
to be the missing factor. -/
theorem not_exhaustive_unknown : ¬ Exhaustive (fun _ => True) (setting Signature.binary.exp)
    (state Signature.binary.exp) (session ["u", "y", "w", "z"]) := by
  let exp := Signature.binary.exp
  let whole : Term := .node exp [c, .node Signature.binary.f [a, b]]
  let τ : Substitution :=
    { bindings := [(u, .node exp [c, a]), (y, b), (w, c), (z, .node Signature.binary.f [a, b]), (x, whole)],
      distinct := by decide }
  have solution : (state exp).Solution .binary τ := solution_state (.symm (.power c a b)) (.refl whole)
  refine not_exhaustive_of_lost (τ := τ) (by cbv) trivial solution fun next member τ' solution' agree => ?_
  have base₁ : τ'.image u = .node exp [c, a] := agree u (by decide)
  have base₂ : τ'.image w = c := agree w (by decide)
  have shadow : τ'.image (fresh ["u", "y", "w", "z"] 0) = whole := agree x (by decide)
  have ways := of_mem_branches member solution'
  rw [base₁, base₂, shadow] at ways
  have notPower (s t : Term) : ¬ EqualModulo .binary c (Signature.binary.power s t) := fun equal => by
    have kinds := equal.kind_eq Signature.oneSorted_binary.toLawful
    rw [kind_power Signature.oneSorted_binary.toLawful] at kinds
    exact Kind.raise_ne_plain _ _ kinds.symm
  rcases ways with first | second | bases | ⟨base, s, t, _, common⟩
  · have exponents := EqualModulo.cancel_base Signature.oneSorted_binary (by decide) (by decide) first
    exact EqualModulo.ne_of_isSimple Signature.oneSorted_binary (h := exp) rfl (by decide) exponents.symm
  · exact notPower _ _ second
  · exact notPower c a bases.symm
  · exact notPower _ _ common

/-- A combination of one term counts as an exponent of its own, so two pairs can differ and have equal powers. -/
theorem not_exhaustive_irregular : ¬ Exhaustive (fun _ => True) (setting Signature.binary.exp)
    (state Signature.binary.exp) (session ["u", "y", "w", "z", "x"]) := by
  let exp := Signature.binary.exp
  let g := Signature.binary.g
  let f := Signature.binary.f
  let whole : Term := .node g [.node exp [c, c], .node exp [a, .node f [b, c]]]
  let τ : Substitution :=
    { bindings := [(u, .node g [c, .node exp [a, b]]), (y, c), (w, .node g [c, .node exp [a, .node f [b]]]), (z, c),
      (x, whole)], distinct := by decide }
  have spread (t : Term) (power : EqualModulo .binary (Signature.binary.power t c) (.node exp [a, .node f [b, c]])) :
      EqualModulo .binary (Signature.binary.power (.app g [c, t]) c) whole :=
    EqualModulo.trans (.distribute c t c) (.pair g (.refl _) power)
  have solution : (state exp).Solution .binary τ := solution_state (spread (.node exp [a, b]) (.power a b c)).symm
    (spread (.node exp [a, .node f [b]]) (.power a (.node f [b]) c)).symm
  refine not_exhaustive_of_lost (τ := τ) (by cbv) trivial solution fun next member τ' solution' agree => ?_
  have base₁ : τ'.image u = .node g [c, .node exp [a, b]] := agree u (by decide)
  have base₂ : τ'.image w = .node g [c, .node exp [a, .node f [b]]] := agree w (by decide)
  have ways := of_mem_branches member solution'
  rw [base₁, base₂] at ways
  have notPower (k t base exponent : Term) (plain : kind .binary k = .plain) :
      ¬ EqualModulo .binary (.app g [k, t]) (Signature.binary.power base exponent) := fun equal => by
    have kinds := equal.kind_eq Signature.oneSorted_binary.toLawful
    rw [kind_power Signature.oneSorted_binary.toLawful, kind_pair Signature.oneSorted_binary.toLawful, plain] at kinds
    exact Kind.raise_ne_pair_plain _ _ _ kinds.symm
  rcases ways with first | second | bases | ⟨base, s, t, common, _⟩
  · exact notPower c _ _ _ rfl first
  · exact notPower c _ _ _ rfl second
  · exact absurd (bases.kind_eq Signature.oneSorted_binary.toLawful) (by decide)
  · exact notPower c _ _ _ rfl common

def mislabelled : FunctionSymbol :=
  ⟨⟨0⟩, 3, .free, .default, .default⟩

/-- A symbol with the number of `exp` counts as `exp`, so that equal arguments are enough. -/
theorem not_exhaustive_mislabelled : ¬ Exhaustive (fun _ => True) (setting mislabelled) (state mislabelled)
    (session ["u", "y", "w", "z", "x"]) := by
  intro exhaustive
  have listed : (state mislabelled).alternatives .binary (session ["u", "y", "w", "z", "x"]) =
    .ok (some ((branches mislabelled (fresh ["u", "y", "w", "z", "x"])).map .ok))
    (drawn ["u", "y", "w", "z", "x"]) := by cbv
  let agreed : State :=
    { definitions := ⟨[⟨.var x, .node mislabelled [.var u, .var y]⟩, ⟨.var u, .var w⟩, ⟨.var y, .var z⟩]⟩ }
  let τ : Substitution :=
    { bindings := [(u, .var w), (y, .var z), (x, .node mislabelled [.var w, .var z])], distinct := by decide }
  have solution : agreed.Solution .binary τ := by
    refine .of_definitions rfl ?_
    simp only [agreed, List.forall_mem_cons, List.not_mem_nil, false_implies, implies_true, and_true]
    exact ⟨.refl _, .refl _, .refl _⟩
  have gained :=
    (exhaustive _ _ listed τ trivial).mpr ⟨agreed, by simp [agreed, branches], τ, trivial, solution, fun _ _ => rfl⟩
  have equal : EqualModulo .binary (.node mislabelled [.var w, .var z])
      (.node Signature.binary.exp [.var w, .var z]) :=
    gained.definitions ⟨.var x, .node Signature.binary.exp [.var w, .var z]⟩ (by simp [state, problem])
  exact absurd (equal.kind_eq Signature.oneSorted_binary.toLawful) (by decide)

/-- Without the conditions on names, arities and numbers, alternatives lose or gain solutions. -/
theorem inexhaustive :
    let five := ["u", "y", "w", "z", "x"]
    let exp := Signature.binary.exp
    Signature.binary.OneSorted ∧ Consistent (Spelled .binary (problem exp)) ∧
      (∀ v ∈ (problem exp).vars, v.id.index < (interner five).variableCount) ∧
      (∀ h ∈ [exp, mislabelled], EverySide (Term.isRegular Signature.binary.f · = true) (problem h).equations) ∧
      (Reached (setting exp) (problem exp) (interner ["u", "y", "w", "z"]) (state exp)
        (session ["u", "y", "w", "z"]) ∧
        ¬ Exhaustive (fun _ => True) (setting exp) (state exp) (session ["u", "y", "w", "z"])) ∧
      (Reached (setting exp) (problem exp) (interner five) (state exp) (session five) ∧
        ¬ Exhaustive (fun _ => True) (setting exp) (state exp) (session five)) ∧
      Reached (setting mislabelled) (problem mislabelled) (interner five) (state mislabelled) (session five) ∧
        ¬ Exhaustive (fun _ => True) (setting mislabelled) (state mislabelled) (session five) :=
  ⟨Signature.oneSorted_binary, by decide, by decide, by decide, ⟨.start rfl, not_exhaustive_unknown⟩,
    ⟨.start rfl, not_exhaustive_irregular⟩, .start rfl, not_exhaustive_mislabelled⟩

end Counterexamples

end TwoDefinitions

end Equational.ExpAC
