import Equational.Proofs.ExpAC.Model
import Equational.Proofs.Term.Regular
import Mathlib.Algebra.Order.Group.Multiset

/-! Values of terms modulo the laws of exponentiation. A power is spread over a pair and a power of
a power takes the exponents together, so a value is a tree of pairs over powers of terms that are
neither. Terms that are equal modulo the laws have the same value, and a regular term is equal
to its value written as a term. -/

namespace Equational.ExpAC

/-- Pairs, and powers below them. A term that is no power has no exponents. -/
inductive Value where
  | power (base : Term) (exponents : Multiset Term)
  | pair (left right : Value)

namespace Value

def raise (more : Multiset Term) : Value → Value
  | power base exponents => power base (exponents + more)
  | pair left right => pair (left.raise more) (right.raise more)

section Raise

variable {v w : Value} {M N : Multiset Term}

@[simp] theorem raise_zero (v : Value) : v.raise 0 = v := by
  induction v with
  | power base exponents => simp [raise]
  | pair left right first second => simp [raise, first, second]

private theorem raise_raise (v : Value) (M N : Multiset Term) : (v.raise M).raise N = v.raise (M + N) := by
  induction v with
  | power base exponents => simp [raise, add_assoc]
  | pair left right first second => simp [raise, first, second]

theorem raise_left_cancel (same : v.raise M = v.raise N) : M = N := by
  induction v with
  | power base exponents =>
    simp only [raise, power.injEq] at same
    exact add_left_cancel same.2
  | pair left right first _ =>
    simp only [raise, pair.injEq] at same
    exact first same.1

/-- Equal powers of two values are powers of a third, which has given up to each what the
other lacks. -/
theorem exists_of_raise_eq [DecidableEq Term] (same : v.raise M = w.raise N) :
    ∃ u : Value, v = u.raise (N - M) ∧ w = u.raise (M - N) := by
  induction v generalizing w with
  | power base exponents =>
    cases w with
    | pair left right => simp [raise] at same
    | power base' exponents' =>
      simp only [raise, power.injEq] at same
      obtain ⟨rfl, total⟩ := same
      have counts (t : Term) : exponents.count t + M.count t = exponents'.count t + N.count t := by
        rw [← Multiset.count_add, total, Multiset.count_add]
      refine ⟨power base (exponents - (N - M)), ?_, ?_⟩
      · rw [raise, power.injEq, Multiset.ext]
        refine ⟨rfl, fun t => ?_⟩
        have count := counts t
        simp only [Multiset.count_add, Multiset.count_sub]
        omega
      · rw [raise, power.injEq, Multiset.ext]
        refine ⟨rfl, fun t => ?_⟩
        have count := counts t
        simp only [Multiset.count_add, Multiset.count_sub]
        omega
  | pair left right first second =>
    cases w with
    | power base' exponents' => simp [raise] at same
    | pair left' right' =>
      simp only [raise, pair.injEq] at same
      obtain ⟨u, left₁, left₂⟩ := first same.1
      obtain ⟨u', right₁, right₂⟩ := second same.2
      exact ⟨pair u u', by rw [raise, left₁, right₁], by rw [raise, left₂, right₂]⟩

/-- A value with exponents is not that of a term by itself. -/
theorem raise_ne_plain {t : Term} (some : M ≠ 0) : v.raise M ≠ power t 0 := by
  intro same
  cases v with
  | pair left right => cases same
  | power base exponents =>
    simp only [raise, power.injEq] at same
    exact some (Multiset.le_zero.mp (same.2 ▸ Multiset.le_add_left M exponents))

theorem raise_injective (same : v.raise M = w.raise M) : v = w := by
  classical
  obtain ⟨u, first, second⟩ := exists_of_raise_eq same
  rw [first, second]

end Raise

section Term

variable (signature : Signature)

noncomputable def exponent (exponents : Multiset Term) : Term :=
  (Term.combined signature.f exponents.toList).shape

open Classical in
noncomputable def term : Value → Term
  | power base exponents => if exponents = 0 then base else .node signature.exp [base, exponent signature exponents]
  | pair left right => .node signature.g [left.term, right.term]

open Classical in
noncomputable def ofApp (h : FunctionSymbol) (values : List Value) : Value :=
  match values with
  | [s, t] =>
    if h = signature.exp then s.raise (Term.bag signature.f (t.term signature))
    else if h = signature.g then pair s t
    else if h.theory = .idempotent ∧ s = t then s
    else power (Term.app h [s.term signature, t.term signature]).shape 0
  | values => power (Term.app h (values.map (term signature))).shape 0

end Term

end Value

mutual

noncomputable def value (signature : Signature) : Term → Value
  | .var v => .power (.var v) 0
  | .const c => .power (.const c) 0
  | .node h args => .ofApp signature h (values signature args)

noncomputable def values (signature : Signature) : List Term → List Value
  | [] => []
  | arg :: args => value signature arg :: values signature args

end

noncomputable def normal (signature : Signature) (t : Term) : Term :=
  (value signature t).term signature

/-- The multiset of exponents that a term stands for as an exponent. -/
noncomputable def exponents (signature : Signature) (t : Term) : Multiset Term :=
  Term.bag signature.f (normal signature t)

private theorem values_eq_map (signature : Signature) (args : List Term) :
    values signature args = args.map (value signature) := by
  induction args with
  | nil => rfl
  | cons arg args ih => rw [values, ih, List.map_cons]

private theorem value_node (signature : Signature) (h : FunctionSymbol) (args : List Term) :
    value signature (.node h args) = .ofApp signature h (args.map (value signature)) := by
  rw [value, values_eq_map]

/-- The values as what terms stand for, variables and constants for themselves. -/
noncomputable def Value.interpretation (signature : Signature) : Interpretation Value where
  ofVariable v := .power (.var v) 0
  ofConstant c := .power (.const c) 0
  ofFunction := .ofApp signature

private theorem value_interpretation (signature : Signature) (t : Term) :
    (Value.interpretation signature).value t = value signature t := by
  induction t with
  | var v | const c => rfl
  | node h args ih =>
    rw [Interpretation.value_node, List.map_congr_left ih, value_node]
    rfl

/-- The first two symbols are free, the third combines, and the first two differ. -/
structure Signature.Lawful (signature : Signature) : Prop where
  exp : signature.exp.theory = .free
  g : signature.g.theory = .free
  f : signature.f.theory = .associativeCommutative
  apart : signature.exp ≠ signature.g

section Invariance

variable {signature : Signature} (lawful : signature.Lawful)
include lawful

private theorem ofApp_of_laws {h : FunctionSymbol} (free : h.theory ≠ .free) (kept : h.theory ≠ .idempotent)
    (vs : List Value) :
    Value.ofApp signature h vs = .power (Term.node h (vs.map (Value.term signature))).shape 0 := by
  have notExp : h ≠ signature.exp := fun same => free (same ▸ lawful.exp)
  have notG : h ≠ signature.g := fun same => free (same ▸ lawful.g)
  simp only [Value.ofApp]
  split
  · rw [if_neg notExp, if_neg notG, if_neg (by simp [kept]), Term.shape_app kept]
    rfl
  · rw [Term.shape_app kept]

private theorem lawful_interpretation : (Value.interpretation signature).Lawful where
  absorb {h} associative xs ys zs := by
    obtain ⟨free, kept⟩ := SymbolTheory.ne_of_isAssociative associative
    simp only [Value.interpretation, ofApp_of_laws lawful free kept, List.map_append, List.map_cons,
      Value.term, if_true]
    refine congrArg (Value.power · 0) (Term.shape_node_eq_iff.mpr ⟨rfl, ?_⟩)
    rw [Term.shapes_append, Term.shapes_cons, Term.shapes_append, Term.shapes_append, List.append_assoc]
    refine .append (.refl h _) (.append ((Term.parts_congr (Term.shape_shape _)).trans (.of_eq ?_)) (.refl h _))
    exact Term.parts_of_absorbed associative _
  permute {h} commutative xs ys same := by
    obtain ⟨free, kept⟩ := SymbolTheory.ne_of_isCommutative commutative
    simp only [Value.interpretation, ofApp_of_laws lawful free kept]
    exact congrArg (Value.power · 0)
      (Term.shape_node_eq_iff.mpr ⟨rfl, (Term.Aligned.of_perm commutative (same.map _)).shapes⟩)

/-- The values are a model of the laws. -/
theorem isModel_interpretation : IsModel signature (Value.interpretation signature) where
  toLawful := lawful_interpretation lawful
  collapse {h} idempotent v := by
    have notExp : h ≠ signature.exp := fun equal => by simp [equal, lawful.exp] at idempotent
    have notG : h ≠ signature.g := fun equal => by simp [equal, lawful.g] at idempotent
    simp [Value.interpretation, Value.ofApp, notExp, notG, idempotent]
  power u v w := by
    have free : signature.f.theory ≠ .free := by simp [lawful.f]
    have kept : signature.f.theory ≠ .idempotent := by simp [lawful.f]
    have total : Term.bag signature.f ((Value.ofApp signature signature.f [v, w]).term signature) =
        Term.bag signature.f (v.term signature) + Term.bag signature.f (w.term signature) := by
      rw [ofApp_of_laws lawful free kept, Value.term, if_pos rfl, Term.bag_congr (Term.shape_shape _),
        Term.bag_node lawful.f]
      simp
    have raised (v w : Value) : Value.ofApp signature signature.exp [v, w] =
        v.raise (Term.bag signature.f (w.term signature)) :=
      if_pos rfl
    simp only [Value.interpretation, raised, total, Value.raise_raise]
  distribute u v w := by simp [Value.interpretation, Value.ofApp, lawful.apart.symm, Value.raise]

/-- The value of an application may be taken before or after it is built. -/
theorem value_app (h : FunctionSymbol) (args : List Term) :
    value signature (.app h args) = .ofApp signature h (args.map (value signature)) := by
  rw [← value_interpretation, (isModel_interpretation lawful).value_app,
    List.map_congr_left fun arg _ => value_interpretation signature arg]
  rfl

theorem value_power (s t : Term) :
    value signature (signature.power s t) = (value signature s).raise (exponents signature t) := by
  rw [Signature.power, value_app lawful]
  simp [Value.ofApp, exponents, normal]

theorem value_pair (s t : Term) :
    value signature (.app signature.g [s, t]) = .pair (value signature s) (value signature t) := by
  have other : signature.g ≠ signature.exp := fun same => lawful.apart same.symm
  rw [value_app lawful]
  simp [Value.ofApp, other]

theorem normal_combination (args : List Term) :
    normal signature (.app signature.f args) = (Term.node signature.f (args.map (normal signature))).shape := by
  have free : signature.f.theory ≠ .free := by simp [lawful.f]
  have kept : signature.f.theory ≠ .idempotent := by simp [lawful.f]
  rw [normal, value_app lawful, ofApp_of_laws lawful free kept, List.map_map, Value.term, if_pos rfl]
  rfl

/-- Terms that are equal modulo the laws have one value. -/
theorem EqualModulo.value_eq {s t : Term} (equal : EqualModulo signature s t) :
    value signature s = value signature t := by
  rw [← value_interpretation, equal.value_eq_of_isModel (isModel_interpretation lawful), value_interpretation]

end Invariance

/-- The laws of the symbols hold, and all three are over one sort. -/
structure Signature.OneSorted (signature : Signature) : Prop extends signature.Lawful where
  expDomain : signature.exp.domain = signature.f.range
  expRange : signature.exp.range = signature.f.range
  gDomain : signature.g.domain = signature.f.range
  gRange : signature.g.range = signature.f.range
  fDomain : signature.f.domain = signature.f.range

/-- What a bag of a regular term contains: regular terms in shape that are no combinations. -/
structure IsPart (signature : Signature) (t : Term) : Prop where
  shape : t.shape = t
  single : t.head? ≠ some signature.f
  regular : t.isRegular signature.f = true

/-- The terms in the value are regular, and the exponents are parts. -/
def Value.Regular (signature : Signature) : Value → Prop
  | power base exponents => base.isRegular signature.f = true ∧ ∀ t ∈ exponents, IsPart signature t
  | pair left right => left.Regular signature ∧ right.Regular signature

section Regular

variable {signature : Signature} (sorted : signature.OneSorted) {v : Value} {t : Term} {M : Multiset Term}
include sorted

theorem isPart_of_mem_bag (regular : t.isRegular signature.f = true) :
    ∀ s ∈ Term.bag signature.f t, IsPart signature s := by
  intro s member
  obtain ⟨shape, single⟩ := Term.of_mem_bag sorted.f member
  exact ⟨shape, single, Term.isRegular_of_mem_bag sorted.f regular member⟩

theorem bag_exponent (parts : ∀ t ∈ M, IsPart signature t) :
    Term.bag signature.f (Value.exponent signature M) = M := by
  have single : ∀ t ∈ M.toList, Term.bag signature.f t = {t} := by
    intro t member
    have part := parts t (Multiset.mem_toList.mp member)
    rw [Term.bag_of_not_rooted part.single, part.shape]
  rw [Value.exponent, Term.bag_congr (Term.shape_shape _), Term.bag_combined sorted.f, List.map_congr_left single,
    ← Multiset.sum_coe, ← Multiset.map_coe, Multiset.coe_toList, Multiset.sum_map_singleton]

theorem regular_exponent (parts : ∀ t ∈ M, IsPart signature t) (some : M ≠ 0) :
    (Value.exponent signature M).isRegular signature.f = true := by
  refine Term.isRegular_shape sorted.f ?_
  have each : ∀ t ∈ M.toList, t.isRegular signature.f = true :=
    fun t member => (parts t (Multiset.mem_toList.mp member)).regular
  have list : M.toList ≠ [] := fun none => some (Multiset.toList_eq_nil.mp none)
  generalize M.toList = ts at each list
  match ts with
  | [] => exact absurd rfl list
  | [t] => exact each t (List.mem_singleton_self t)
  | s :: t :: rest => exact Term.isRegular_app sorted.f (.inl rfl) rfl (fun _ => by simp) each

omit sorted in
private theorem Value.Regular.raise (regular : v.Regular signature) (parts : ∀ t ∈ M, IsPart signature t) :
    (v.raise M).Regular signature := by
  induction v with
  | power base exponents =>
    refine ⟨regular.1, fun t member => ?_⟩
    rcases Multiset.mem_add.mp member with old | new
    · exact regular.2 t old
    · exact parts t new
  | pair left right first second => exact ⟨first regular.1, second regular.2⟩

omit sorted in
theorem Value.Regular.of_raise (regular : (v.raise M).Regular signature) : v.Regular signature := by
  induction v with
  | power base exponents => exact ⟨regular.1, fun t member => regular.2 t (Multiset.mem_add.mpr (.inl member))⟩
  | pair left right first second => exact ⟨first regular.1, second regular.2⟩

theorem Value.Regular.term (regular : v.Regular signature) : (v.term signature).isRegular signature.f = true := by
  induction v with
  | power base exponents =>
    rw [Value.term]
    split
    · exact regular.1
    next some =>
      refine Term.isRegular_node.mpr ⟨.inr sorted.exp, sorted.expRange, fun _ => by simp, ?_⟩
      simp only [List.forall_mem_cons, List.not_mem_nil, false_implies, implies_true, and_true]
      exact ⟨regular.1, regular_exponent sorted regular.2 some⟩
  | pair left right first second =>
    refine Term.isRegular_node.mpr ⟨.inr sorted.g, sorted.gRange, fun _ => by simp, ?_⟩
    simp only [List.forall_mem_cons, List.not_mem_nil, false_implies, implies_true, and_true]
    exact ⟨first regular.1, second regular.2⟩

private theorem regular_ofApp {h : FunctionSymbol} {vs : List Value} (symbol : h = signature.f ∨ h.theory = .free)
    (range : h.range = signature.f.range) (many : h = signature.f → 2 ≤ vs.length)
    (each : ∀ v ∈ vs, v.Regular signature) : (Value.ofApp signature h vs).Regular signature := by
  have whole : (Value.power (Term.app h (vs.map (Value.term signature))).shape 0).Regular signature := by
    refine ⟨Term.isRegular_shape sorted.f
      (Term.isRegular_app sorted.f symbol range (by simpa using many) ?_), by simp⟩
    intro arg member
    obtain ⟨v, present, rfl⟩ := List.mem_map.mp member
    exact (each v present).term sorted
  simp only [Value.ofApp]
  split
  next s t =>
    obtain ⟨first, second, _⟩ : s.Regular signature ∧ t.Regular signature ∧ True := by simpa using each
    split
    · exact first.raise (isPart_of_mem_bag sorted (second.term sorted))
    · split
      · exact ⟨first, second⟩
      · split
        · exact first
        · exact whole
  next => exact whole

theorem regular_value (regular : t.isRegular signature.f = true) : (value signature t).Regular signature := by
  induction t with
  | var v => exact ⟨regular, by simp⟩
  | const c => exact ⟨regular, by simp⟩
  | node h args ih =>
    obtain ⟨symbol, range, many, each⟩ := Term.isRegular_node.mp regular
    rw [value_node]
    refine regular_ofApp sorted symbol range (by simpa using many) ?_
    intro v member
    obtain ⟨arg, present, rfl⟩ := List.mem_map.mp member
    exact ih arg present (each arg present)

theorem regular_normal (regular : t.isRegular signature.f = true) :
    (normal signature t).isRegular signature.f = true :=
  (regular_value sorted regular).term sorted

/-- A power of a value written as a term is the raised value written as a term. -/
theorem equal_raise (regular : v.Regular signature) (exponent : t.isRegular signature.f = true) :
    EqualModulo signature (signature.power (v.term signature) t)
      ((v.raise (Term.bag signature.f t)).term signature) := by
  have power {b s : Term} : signature.power b s = .node signature.exp [b, s] := Term.app_of_free sorted.exp _
  have parts := isPart_of_mem_bag sorted exponent
  have some := Multiset.card_pos.mp (Term.card_bag_pos sorted.f (Term.isAtLeastBinary_of_isRegular exponent))
  induction v with
  | power base exponents =>
    have total : exponents + Term.bag signature.f t ≠ 0 := by
      intro none
      have below := Multiset.le_add_left (Term.bag signature.f t) exponents
      rw [none] at below
      exact some (Multiset.le_zero.mp below)
    have rest : ∀ s ∈ exponents + Term.bag signature.f t, IsPart signature s := fun s member =>
      (Multiset.mem_add.mp member).elim (regular.2 s) (parts s)
    have written {u : Term} (binary : u.isRegular signature.f = true)
        (same : Term.bag signature.f u = exponents + Term.bag signature.f t) :
        EqualModulo signature u (Value.exponent signature (exponents + Term.bag signature.f t)) := by
      refine .of_shape (Term.shape_eq_of_bag_eq sorted.f (Term.isAtLeastBinary_of_isRegular binary) ?_ ?_)
      · exact Term.isAtLeastBinary_of_isRegular (regular_exponent sorted rest total)
      · rw [same, bag_exponent sorted rest]
    rw [Value.raise, Value.term, Value.term, if_neg total]
    split
    next none =>
      rw [← power]
      exact .pair _ (.refl base) (written exponent (by simp [none]))
    next proper =>
      have old := regular_exponent sorted regular.2 proper
      have combined : (signature.combine (Value.exponent signature exponents) t).isRegular signature.f = true :=
        Term.isRegular_app sorted.f (.inl rfl) rfl (fun _ => by simp) (by simp [old, exponent])
      rw [← power, ← power]
      refine .trans (.power _ _ _) (.pair _ (.refl base) (written combined ?_))
      rw [Signature.combine, Term.bag_app sorted.f]
      simp [bag_exponent sorted regular.2]
  | pair left right first second =>
    rw [Value.raise, Value.term, Value.term, ← Term.app_of_free sorted.g, ← Term.app_of_free sorted.g]
    exact .trans (.distribute _ _ t) (.pair _ (first regular.1) (second regular.2))

/-- A regular term is equal to its value written as a term. -/
theorem equal_normal (regular : t.isRegular signature.f = true) : EqualModulo signature t (normal signature t) := by
  induction t with
  | var v => simp only [normal, value, Value.term, if_pos]; exact .refl _
  | const c => simp only [normal, value, Value.term, if_pos]; exact .refl _
  | node h args ih =>
    obtain ⟨symbol, range, many, each⟩ := Term.isRegular_node.mp regular
    have inside : EqualModulo signature (.node h args) (.app h (args.map (normal signature))) := by
      refine .trans (.of_shape (Term.shape_app (Term.ne_idempotent_of_regular sorted.f symbol) args).symm) (.app h ?_)
      rw [List.forall₂_map_right_iff, List.forall₂_same]
      exact fun arg member => ih arg member (each arg member)
    have shaped (vs : List Value) : EqualModulo signature (.app h (vs.map (Value.term signature)))
        ((Value.power (Term.app h (vs.map (Value.term signature))).shape 0).term signature) := by
      rw [Value.term, if_pos rfl]
      exact .of_shape (Term.shape_shape _).symm
    refine inside.trans ?_
    have written : args.map (normal signature) = (args.map (value signature)).map (Value.term signature) := by
      rw [List.map_map]
      rfl
    have values : ∀ v ∈ args.map (value signature), v.Regular signature := by
      intro v member
      obtain ⟨arg, present, rfl⟩ := List.mem_map.mp member
      exact regular_value sorted (each arg present)
    rw [written, normal, value_node]
    generalize args.map (value signature) = vs at values
    simp only [Value.ofApp]
    split
    next s t =>
      obtain ⟨first, second, _⟩ : s.Regular signature ∧ t.Regular signature ∧ True := by simpa using values
      split
      next same =>
        subst same
        exact equal_raise sorted first (second.term sorted)
      next =>
        split
        next same =>
          subst same
          rw [Value.term, List.map_cons, List.map_cons, List.map_nil, Term.app_of_free sorted.g]
          exact .refl _
        next =>
          rw [if_neg fun collapse => Term.ne_idempotent_of_regular sorted.f symbol collapse.1]
          exact shaped [s, t]
    next => exact shaped _

variable {s : Term} (left : s.isRegular signature.f = true) (right : t.isRegular signature.f = true)
include left right

/-- Regular terms are equal modulo the laws exactly when they have one value. -/
theorem equalModulo_iff_value : EqualModulo signature s t ↔ value signature s = value signature t := by
  refine ⟨fun equal => equal.value_eq sorted.toLawful, fun same => ?_⟩
  refine (equal_normal sorted left).trans (.trans ?_ (equal_normal sorted right).symm)
  rw [normal, same, normal]
  exact .refl _

theorem equalModulo_iff_exponents : EqualModulo signature s t ↔ exponents signature s = exponents signature t := by
  constructor
  · intro equal
    rw [exponents, normal, equal.value_eq sorted.toLawful, exponents, normal]
  · intro same
    refine (equal_normal sorted left).trans (.trans (.of_shape ?_) (equal_normal sorted right).symm)
    exact Term.shape_eq_of_bag_eq sorted.f (Term.isAtLeastBinary_of_isRegular (regular_normal sorted left))
      (Term.isAtLeastBinary_of_isRegular (regular_normal sorted right)) same

end Regular

end Equational.ExpAC
