import Equational.Proofs.Matching

/-! Values of terms in a carrier. An interpretation that obeys the laws of the symbols gives equal terms
one value, so a match gives the pattern, under the values of what is bound, the value of the term, and
an instance has the value of the term under the values of what is put in. -/

namespace Equational

universe u

/-- What the symbols stand for in a carrier. An operation is given the values of all arguments, however
many they are. -/
structure Interpretation (α : Type u) where
  ofVariable : Variable → α
  ofConstant : Constant → α
  ofFunction : FunctionSymbol → List α → α

namespace Interpretation

variable {α : Type u}

/-- The variables stand for the given values, the other symbols for what they did. -/
def assign (I : Interpretation α) (m : Variable → α) : Interpretation α :=
  { I with ofVariable := m }

@[simp] theorem assign_ofVariable (I : Interpretation α) (m : Variable → α) : (I.assign m).ofVariable = m := rfl

@[simp] theorem assign_ofConstant (I : Interpretation α) (m : Variable → α) :
    (I.assign m).ofConstant = I.ofConstant := rfl

@[simp] theorem assign_ofFunction (I : Interpretation α) (m : Variable → α) :
    (I.assign m).ofFunction = I.ofFunction := rfl

mutual

def value (I : Interpretation α) : Term → α
  | .var v => I.ofVariable v
  | .const c => I.ofConstant c
  | .node f args => I.ofFunction f (I.values args)

def values (I : Interpretation α) : List Term → List α
  | [] => []
  | arg :: args => I.value arg :: I.values args

end

private theorem values_eq_map (I : Interpretation α) (args : List Term) : I.values args = args.map I.value := by
  induction args with
  | nil => rfl
  | cons arg args ih => rw [values, ih, List.map_cons]

@[simp] theorem value_var (I : Interpretation α) (v : Variable) : I.value (.var v) = I.ofVariable v := rfl

@[simp] theorem value_const (I : Interpretation α) (c : Constant) : I.value (.const c) = I.ofConstant c := rfl

@[simp] theorem value_node (I : Interpretation α) (f : FunctionSymbol) (args : List Term) :
    I.value (.node f args) = I.ofFunction f (args.map I.value) := by
  rw [value, values_eq_map]

/-- An associative symbol may take over the arguments of an argument, and a commutative one takes its
arguments in any order. -/
structure Lawful (I : Interpretation α) : Prop where
  absorb : ∀ {f : FunctionSymbol}, f.theory.isAssociative = true → ∀ xs ys zs : List α,
    I.ofFunction f (xs ++ I.ofFunction f ys :: zs) = I.ofFunction f (xs ++ ys ++ zs)
  permute : ∀ {f : FunctionSymbol}, f.theory.isCommutative = true → ∀ {xs ys : List α}, xs.Perm ys →
    I.ofFunction f xs = I.ofFunction f ys

/-- If the symbol collapses a pair of equal arguments, it gives their value back. -/
def Collapses (I : Interpretation α) (f : FunctionSymbol) : Prop :=
  f.theory = .idempotent → ∀ a, I.ofFunction f [a, a] = a

variable {I : Interpretation α} {f : FunctionSymbol} {s t : Term}

theorem Collapses.of_kept (kept : f.theory ≠ .idempotent) : I.Collapses f :=
  fun idempotent => absurd idempotent kept

/-- It is enough that every symbol with laws, whichever they are, may take over arguments and permute them. -/
theorem Lawful.of_laws (absorb : ∀ {f : FunctionSymbol}, f.theory ≠ .free → ∀ xs ys zs : List α,
      I.ofFunction f (xs ++ I.ofFunction f ys :: zs) = I.ofFunction f (xs ++ ys ++ zs))
    (permute : ∀ {f : FunctionSymbol}, f.theory ≠ .free → ∀ {xs ys : List α}, xs.Perm ys →
      I.ofFunction f xs = I.ofFunction f ys) :
    I.Lawful where
  absorb associative := absorb (SymbolTheory.ne_of_isAssociative associative).1
  permute commutative := permute (SymbolTheory.ne_of_isCommutative commutative).1

section Values

variable (lawful : I.Lawful)
include lawful

private theorem Lawful.aligned {xs ys : List Term} (aligned : Term.Aligned f xs ys) :
    I.ofFunction f (xs.map I.value) = I.ofFunction f (ys.map I.value) := by
  simp only [Term.Aligned] at aligned
  split at aligned
  next commutative => exact lawful.permute commutative (aligned.map I.value)
  next => rw [aligned]

private theorem value_shape_and_parts (t : Term) : I.value t.shape = I.value t ∧ ∀ f xs zs,
    I.ofFunction f (xs ++ (Term.parts f t).map I.value ++ zs) = I.ofFunction f (xs ++ I.value t :: zs) := by
  have whole {t : Term} {f : FunctionSymbol} (kept : f.theory.isAssociative = true → t.head? ≠ some f)
      (same : I.value t.shape = I.value t) (xs zs : List α) :
      I.ofFunction f (xs ++ (Term.parts f t).map I.value ++ zs) = I.ofFunction f (xs ++ I.value t :: zs) := by
    rw [Term.parts_of_not_absorbed kept, List.map_singleton, same, List.append_assoc, List.singleton_append]
  induction t with
  | var v => exact ⟨rfl, fun f => whole (by simp [Term.head?]) rfl⟩
  | const c => exact ⟨rfl, fun f => whole (by simp [Term.head?]) rfl⟩
  | node h args ih =>
    have inside (f : FunctionSymbol) (xs zs : List α) :
        I.ofFunction f (xs ++ (Term.shapes f args).map I.value ++ zs) =
          I.ofFunction f (xs ++ args.map I.value ++ zs) := by
      induction args generalizing xs with
      | nil => rfl
      | cons arg args rest =>
        obtain ⟨first, others⟩ := List.forall_mem_cons.mp ih
        have head := first.2 f xs ((Term.shapes f args).map I.value ++ zs)
        have tail := rest others (xs ++ [I.value arg])
        simp only [List.append_assoc, List.cons_append, List.nil_append] at head tail
        simp only [Term.shapes_cons, List.map_append, List.append_assoc, List.map_cons, List.cons_append, head, tail]
    have same : I.value (Term.node h args).shape = I.value (.node h args) := by
      rw [Term.shape, value_node, value_node, lawful.aligned (Term.aligned_arrange h _)]
      simpa using inside h [] []
    refine ⟨same, fun f xs zs => ?_⟩
    by_cases absorbed : f.theory.isAssociative = true ∧ h = f
    · obtain ⟨associative, rfl⟩ := absorbed
      rw [Term.parts_of_absorbed associative, inside, value_node, lawful.absorb associative]
    · exact whole (fun associative root => absorbed ⟨associative, by simpa [Term.head?] using root⟩) same xs zs

/-- Equal terms have one value. -/
theorem value_congr (same : s.shape = t.shape) : I.value s = I.value t := by
  rw [← (value_shape_and_parts lawful s).1, same, (value_shape_and_parts lawful t).1]

/-- An application has the value that its symbol gives to its arguments, unless it collapses to one of
two equal arguments. -/
theorem value_app_or (f : FunctionSymbol) (args : List Term) :
    I.value (.app f args) = I.ofFunction f (args.map I.value) ∨
    f.theory = .idempotent ∧ args.map I.value = [I.value (.app f args), I.value (.app f args)] := by
  by_cases idempotent : f.theory = .idempotent
  · by_cases pair : args.length = 2
    · obtain ⟨s, t, rfl⟩ := List.length_eq_two.mp pair
      rw [Term.app_pair idempotent]
      split
      next same => exact .inr ⟨idempotent, by simp [value_congr lawful (Term.beq_iff_shape.mp same)]⟩
      next => exact .inl (value_node ..)
    · exact .inl (by rw [Term.app_of_length_ne idempotent pair, value_node])
  · exact .inl (by rw [value_congr lawful (Term.shape_app idempotent args), value_node])

/-- It does not matter to the value whether an application collapses if the symbol gives the value of
two equal arguments back. -/
theorem value_app_of_collapse (collapse : I.Collapses f) (args : List Term) :
    I.value (.app f args) = I.ofFunction f (args.map I.value) := by
  rcases value_app_or lawful f args with whole | ⟨idempotent, pair⟩
  · exact whole
  · rw [pair, collapse idempotent]

/-- Instances of a term have its value under the values of what is put in, unless something collapses
and changes its value. -/
theorem value_instantiate (collapse : t.Over I.Collapses) (m : Variable → Term) :
    I.value (t.instantiate m) = (I.assign fun v => I.value (m v)).value t := by
  induction t with
  | var v => rfl
  | const c => rfl
  | node f args ih =>
    obtain ⟨root, each⟩ := Term.over_node.mp collapse
    rw [Term.instantiate_node, value_app_of_collapse lawful root, value_node, List.map_map]
    exact congrArg _ (List.map_inj_left.mpr fun arg member => ih arg member (each arg member))

theorem value_apply (collapse : t.Over I.Collapses) (σ : Substitution) :
    I.value (σ.apply t) = (I.assign fun v => I.value (σ.image v)).value t := by
  rcases σ.apply_eq_or t with rebuilt | ⟨none, same⟩
  · rw [rebuilt, value_instantiate lawful collapse]
  · rw [same, none]
    rfl

private theorem value_of_matches {pattern : Term} {m : Variable → Term} (matches' : Term.Matches m pattern t) :
    (I.assign fun v => I.value (m v)).value pattern = I.value t := by
  induction pattern generalizing t with
  | var v =>
    cases matches' with
    | var _ value => exact value_congr lawful value
  | const c =>
    cases matches'
    rfl
  | node f patterns ih =>
    cases matches' with
    | @node _ _ ts args order each =>
      have below : patterns.map (I.assign fun v => I.value (m v)).value = ts.map I.value := by
        have both := (List.forall₂_and_left _ _).mpr ⟨ih, each⟩
        clear each order ih
        induction both with
        | nil => rfl
        | cons head _ rest => rw [List.map_cons, List.map_cons, head.1 head.2, rest]
      rw [value_node, below, value_node]
      exact lawful.aligned order.aligned

/-- What a pattern matches has the value of the pattern under the values of what is bound. -/
theorem value_of_match? {pattern : Term} {σ : Substitution} (matched : pattern.match? t = some σ) :
    (I.assign fun v => I.value (σ.image v)).value pattern = I.value t :=
  value_of_matches lawful (Term.matches_of_match? matched)

end Values

end Interpretation

end Equational
