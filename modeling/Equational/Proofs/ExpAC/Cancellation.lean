import Equational.Proofs.AC.Check
import Equational.Proofs.ExpAC.Value

/-! What equality of applications modulo the laws says about their arguments. Powers of one base or
with one exponent can be cancelled, pairs and free symbols taken apart, and a power that is a pair
spreads over one. Powers in general are powers of a common base. The arguments of an application
weigh less than the application. -/

namespace Equational.ExpAC

variable {signature : Signature}

section Cancellation

variable (sorted : signature.OneSorted) {s t u w s₁ t₁ s₂ t₂ : Term}

private theorem exponents_ne_zero (sorted : signature.OneSorted) (regular : t.isRegular signature.f = true) :
    exponents signature t ≠ 0 :=
  Multiset.card_pos.mp
    (Term.card_bag_pos sorted.f (Term.isAtLeastBinary_of_isRegular (regular_normal sorted regular)))

include sorted

private theorem isRegular_power (base : s.isRegular signature.f = true) (exponent : t.isRegular signature.f = true) :
    (signature.power s t).isRegular signature.f = true :=
  Term.isRegular_app sorted.f (.inr sorted.exp) sorted.expRange (fun _ => by simp) (by simp [base, exponent])

theorem isRegular_combine (left : s.isRegular signature.f = true) (right : t.isRegular signature.f = true) :
    (signature.combine s t).isRegular signature.f = true :=
  Term.isRegular_app sorted.f (.inl rfl) rfl (fun _ => by simp) (by simp [left, right])

namespace EqualModulo

/-- Powers of one base have equal exponents. -/
theorem cancel_base (first : t₁.isRegular signature.f = true) (second : t₂.isRegular signature.f = true)
    (equal : EqualModulo signature (signature.power s t₁) (signature.power s t₂)) : EqualModulo signature t₁ t₂ := by
  have values := equal.value_eq sorted.toLawful
  rw [value_power sorted.toLawful, value_power sorted.toLawful] at values
  exact (equalModulo_iff_exponents sorted first second).mpr (Value.raise_left_cancel values)

/-- Powers with one exponent have equal bases. -/
theorem cancel_exponent (first : s₁.isRegular signature.f = true) (second : s₂.isRegular signature.f = true)
    (equal : EqualModulo signature (signature.power s₁ t) (signature.power s₂ t)) : EqualModulo signature s₁ s₂ := by
  have values := equal.value_eq sorted.toLawful
  rw [value_power sorted.toLawful, value_power sorted.toLawful] at values
  exact (equalModulo_iff_value sorted first second).mpr (Value.raise_injective values)

/-- Equal pairs have equal parts. -/
theorem of_pair (regular : ∀ t ∈ [s₁, t₁, s₂, t₂], t.isRegular signature.f = true)
    (equal : EqualModulo signature (.app signature.g [s₁, t₁]) (.app signature.g [s₂, t₂])) :
    EqualModulo signature s₁ s₂ ∧ EqualModulo signature t₁ t₂ := by
  have values := equal.value_eq sorted.toLawful
  rw [value_pair sorted.toLawful, value_pair sorted.toLawful, Value.pair.injEq] at values
  exact ⟨(equalModulo_iff_value sorted (regular _ (by simp)) (regular _ (by simp))).mpr values.1,
    (equalModulo_iff_value sorted (regular _ (by simp)) (regular _ (by simp))).mpr values.2⟩

private theorem value_cases (h : FunctionSymbol) {args : List Term}
    (regular : (Term.node h args).isRegular signature.f = true) :
    (h = signature.exp ∧ ∃ s t, args = [s, t] ∧ exponents signature t ≠ 0 ∧
      value signature (.app h args) = (value signature s).raise (exponents signature t)) ∨
      (h = signature.g ∧ ∃ s t, args = [s, t] ∧
        value signature (.app h args) = .pair (value signature s) (value signature t)) ∨
      value signature (.app h args) = .power (Term.node h (args.map (normal signature))).shape 0 := by
  obtain ⟨symbol, _, _, each⟩ := Term.isRegular_node.mp regular
  by_cases exp : h = signature.exp ∧ args.length = 2
  · obtain ⟨rfl, two⟩ := exp
    obtain ⟨s, t, rfl⟩ := List.length_eq_two.mp two
    exact .inl ⟨rfl, s, t, rfl, exponents_ne_zero sorted (each t (by simp)), value_power sorted.toLawful s t⟩
  · by_cases g : h = signature.g ∧ args.length = 2
    · obtain ⟨rfl, two⟩ := g
      obtain ⟨s, t, rfl⟩ := List.length_eq_two.mp two
      exact .inr (.inl ⟨rfl, s, t, rfl, value_pair sorted.toLawful s t⟩)
    · refine .inr (.inr ?_)
      have kept := Term.ne_idempotent_of_regular sorted.f symbol
      have shaped : (args.map (value signature)).map (Value.term signature) = args.map (normal signature) := by
        rw [List.map_map]
        rfl
      rw [value_app sorted.toLawful, ← Term.shape_app kept, ← shaped]
      have lengths : (args.map (value signature)).length = args.length := List.length_map ..
      rw [← lengths] at exp g
      generalize args.map (value signature) = vs at exp g
      simp only [Value.ofApp]
      split
      · rw [if_neg fun same => exp ⟨same, rfl⟩, if_neg fun same => g ⟨same, rfl⟩,
          if_neg fun collapse => kept collapse.1]
        rfl
      · rfl

/-- No term is a power of itself. -/
theorem ne_power_self (exponent : t.isRegular signature.f = true) :
    ¬ EqualModulo signature s (signature.power s t) := by
  intro equal
  have values := equal.value_eq sorted.toLawful
  rw [value_power sorted.toLawful] at values
  exact exponents_ne_zero sorted exponent
    (Value.raise_left_cancel (v := value signature s) (by rw [← values, Value.raise_zero]))

omit sorted in
private theorem value_of_isSimple (simple : t.isSimple = true) : value signature t = .power t 0 := by
  cases t with
  | var v | const c => rw [value]
  | node h args => cases simple

omit sorted in
/-- Variables and constants are equal only to themselves. -/
theorem eq_of_isSimple (lawful : signature.Lawful) (left : s.isSimple = true) (right : t.isSimple = true)
    (equal : EqualModulo signature s t) : s = t := by
  have values := equal.value_eq lawful
  rw [value_of_isSimple left, value_of_isSimple right, Value.power.injEq] at values
  exact values.1

theorem ne_of_isSimple {h : FunctionSymbol} {args : List Term} (simple : t.isSimple = true)
    (regular : (Term.node h args).isRegular signature.f = true) : ¬ EqualModulo signature (.app h args) t := by
  intro equal
  have values := equal.value_eq sorted.toLawful
  rw [value_of_isSimple simple] at values
  rcases value_cases sorted h regular with ⟨_, s, u, _, some, whole⟩ | ⟨_, s, u, _, whole⟩ | whole
  · rw [whole] at values
    exact Value.raise_ne_plain some values
  · rw [whole] at values
    cases values
  · rw [whole, Value.power.injEq] at values
    rw [← values.1] at simple
    cases simple

/-- Of applications of different symbols, only a power and a pair can be equal. -/
theorem compatible {h₁ h₂ : FunctionSymbol} {xs ys : List Term}
    (regular₁ : (Term.node h₁ xs).isRegular signature.f = true)
    (regular₂ : (Term.node h₂ ys).isRegular signature.f = true)
    (equal : EqualModulo signature (.app h₁ xs) (.app h₂ ys)) :
    h₁ = h₂ ∨ (h₁ = signature.exp ∧ h₂ = signature.g) ∨ (h₁ = signature.g ∧ h₂ = signature.exp) := by
  have values := equal.value_eq sorted.toLawful
  rcases value_cases sorted h₁ regular₁ with ⟨root₁, _, _, _, some₁, whole₁⟩ | ⟨root₁, _, _, _, whole₁⟩ | whole₁
  all_goals rcases value_cases sorted h₂ regular₂ with ⟨root₂, _, _, _, some₂, whole₂⟩ | ⟨root₂, _, _, _,
    whole₂⟩ | whole₂
  all_goals rw [whole₁, whole₂] at values
  · exact .inl (root₁.trans root₂.symm)
  · exact .inr (.inl ⟨root₁, root₂⟩)
  · exact absurd values (Value.raise_ne_plain some₁)
  · exact .inr (.inr ⟨root₁, root₂⟩)
  · exact .inl (root₁.trans root₂.symm)
  · cases values
  · exact absurd values.symm (Value.raise_ne_plain some₂)
  · cases values
  · rw [Value.power.injEq, Term.shape_node_eq_iff] at values
    exact .inl values.1.1

/-- Equal applications of a free symbol have equal arguments. -/
theorem of_free {h : FunctionSymbol} {xs ys : List Term} (free : h.theory = .free) (notExp : h ≠ signature.exp)
    (notG : h ≠ signature.g) (left : (Term.node h xs).isRegular signature.f = true)
    (right : (Term.node h ys).isRegular signature.f = true) (equal : EqualModulo signature (.app h xs) (.app h ys)) :
    List.Forall₂ (EqualModulo signature) xs ys := by
  have values := equal.value_eq sorted.toLawful
  have whole {args : List Term} (regular : (Term.node h args).isRegular signature.f = true) :
      value signature (.app h args) = .power (.node h ((args.map (normal signature)).map Term.shape)) 0 := by
    rcases value_cases sorted h regular with ⟨exp, _⟩ | ⟨g, _⟩ | value
    · exact absurd exp notExp
    · exact absurd g notG
    · rw [value, Term.shape_node_of_free free]
  rw [whole left, whole right, Value.power.injEq, Term.node.injEq] at values
  have same := values.1.2
  have regularLeft := (Term.isRegular_node.mp left).2.2.2
  have regularRight := (Term.isRegular_node.mp right).2.2.2
  clear equal values whole left right
  induction xs generalizing ys with
  | nil =>
    cases ys with
    | nil => exact .nil
    | cons y ys => cases same
  | cons x xs ih =>
    cases ys with
    | nil => cases same
    | cons y ys =>
      simp only [List.map_cons, List.cons.injEq] at same
      obtain ⟨first, rest⟩ := List.forall_mem_cons.mp regularLeft
      obtain ⟨first', rest'⟩ := List.forall_mem_cons.mp regularRight
      refine .cons ?_ (ih same.2 rest rest')
      exact (equal_normal sorted first).trans (.trans (.of_shape same.1) (equal_normal sorted first').symm)

/-- A power that is a pair is the power of a pair. -/
theorem exists_spread (base : s.isRegular signature.f = true) (exponent : t.isRegular signature.f = true)
    (left : u.isRegular signature.f = true) (right : w.isRegular signature.f = true)
    (equal : EqualModulo signature (signature.power s t) (.app signature.g [u, w])) :
    ∃ a b : Term, a.isRegular signature.f = true ∧ b.isRegular signature.f = true ∧
      EqualModulo signature s (.app signature.g [a, b]) ∧ EqualModulo signature u (signature.power a t) ∧
      EqualModulo signature w (signature.power b t) := by
  have values := equal.value_eq sorted.toLawful
  have normalBase := equal_normal sorted base
  have regular := regular_value sorted base
  rw [value_power sorted.toLawful, value_pair sorted.toLawful] at values
  rw [normal] at normalBase
  cases whole : value signature s with
  | power base exponents =>
    rw [whole] at values
    cases values
  | pair first second =>
    rw [whole] at normalBase regular
    rw [Value.term, ← Term.app_of_free sorted.g] at normalBase
    have regularFirst := regular.1.term sorted
    have regularSecond := regular.2.term sorted
    have spread : EqualModulo signature (.app signature.g [u, w])
        (.app signature.g [signature.power (first.term signature) t, signature.power (second.term signature) t]) :=
      equal.symm.trans (.trans (.pair _ normalBase (.refl t)) (.distribute _ _ t))
    have parts := spread.of_pair sorted (by
      simp [left, right, isRegular_power sorted regularFirst exponent, isRegular_power sorted regularSecond exponent])
    exact ⟨_, _, regularFirst, regularSecond, normalBase, parts.1, parts.2⟩

/-- The ways in which two powers can be equal: one base is a power of the other, the bases and the
exponents agree, or both bases are powers of a third. -/
inductive Meet (signature : Signature) (s₁ t₁ s₂ t₂ : Term) : Prop where
  | first {z : Term} (regular : z.isRegular signature.f = true)
      (base : EqualModulo signature s₁ (signature.power s₂ z))
      (exponent : EqualModulo signature t₂ (signature.combine z t₁)) : Meet signature s₁ t₁ s₂ t₂
  | second {z : Term} (regular : z.isRegular signature.f = true)
      (base : EqualModulo signature s₂ (signature.power s₁ z))
      (exponent : EqualModulo signature t₁ (signature.combine z t₂)) : Meet signature s₁ t₁ s₂ t₂
  | agree (bases : EqualModulo signature s₁ s₂) (exponents : EqualModulo signature t₁ t₂) : Meet signature s₁ t₁ s₂ t₂
  | common {b y w : Term} (regular : ∀ t ∈ [b, y, w], t.isRegular signature.f = true)
      (base₁ : EqualModulo signature s₁ (signature.power b y))
      (base₂ : EqualModulo signature s₂ (signature.power b w))
      (exponent : EqualModulo signature (signature.combine t₁ y) (signature.combine t₂ w)) :
        Meet signature s₁ t₁ s₂ t₂

private theorem of_bag (regular : t.isRegular signature.f = true) (regular' : u.isRegular signature.f = true)
    (same : Term.bag signature.f t = Term.bag signature.f u) : EqualModulo signature t u :=
  .of_shape (Term.shape_eq_of_bag_eq sorted.f (Term.isAtLeastBinary_of_isRegular regular)
    (Term.isAtLeastBinary_of_isRegular regular') same)

section Exponents

variable {v : Value} {M : Multiset Term} (parts : ∀ t ∈ M, IsPart signature t) (some : M ≠ 0)
include parts some

private theorem of_raise (base : s.isRegular signature.f = true) (whole : value signature s = v.raise M) :
    EqualModulo signature s (signature.power (v.term signature) (Value.exponent signature M)) := by
  have regular : v.Regular signature := (whole ▸ regular_value sorted base).of_raise
  have written := equal_raise sorted regular (regular_exponent sorted parts some)
  rw [bag_exponent sorted parts, ← whole] at written
  exact (equal_normal sorted base).trans written.symm

private theorem bag_combine_exponent (regular : t.isRegular signature.f = true) :
    (signature.combine (normal signature t) (Value.exponent signature M)).isRegular signature.f = true ∧
      Term.bag signature.f (signature.combine (normal signature t) (Value.exponent signature M)) =
        exponents signature t + M := by
  refine ⟨isRegular_combine sorted (regular_normal sorted regular) (regular_exponent sorted parts some), ?_⟩
  rw [Signature.combine, Term.bag_app sorted.f]
  simp [bag_exponent sorted parts, exponents]

private theorem of_exponents_add (regular : t.isRegular signature.f = true)
    (regular' : u.isRegular signature.f = true) (total : exponents signature u = exponents signature t + M) :
    EqualModulo signature u (signature.combine (Value.exponent signature M) t) := by
  obtain ⟨whole, bag⟩ := bag_combine_exponent sorted parts some regular
  calc EqualModulo signature u (normal signature u) := equal_normal sorted regular'
    EqualModulo signature _ (signature.combine (normal signature t) (Value.exponent signature M)) :=
      of_bag sorted (regular_normal sorted regular') whole (total.trans bag.symm)
    EqualModulo signature _ (signature.combine t (Value.exponent signature M)) :=
      .pair _ (equal_normal sorted regular).symm (.refl _)
    EqualModulo signature _ (signature.combine (Value.exponent signature M) t) := .combine_comm sorted.f _ _

end Exponents

/-- Powers that are equal meet in one of the four ways. -/
theorem meet (base₁ : s₁.isRegular signature.f = true) (exponent₁ : t₁.isRegular signature.f = true)
    (base₂ : s₂.isRegular signature.f = true) (exponent₂ : t₂.isRegular signature.f = true)
    (equal : EqualModulo signature (signature.power s₁ t₁) (signature.power s₂ t₂)) : Meet signature s₁ t₁ s₂ t₂ := by
  classical
  have values := equal.value_eq sorted.toLawful
  rw [value_power sorted.toLawful, value_power sorted.toLawful] at values
  obtain ⟨u, first, second⟩ := Value.exists_of_raise_eq values
  have regular : u.Regular signature := (first ▸ regular_value sorted base₁).of_raise
  have left : ∀ t ∈ exponents signature t₂ - exponents signature t₁, IsPart signature t := fun t member =>
    isPart_of_mem_bag sorted (regular_normal sorted exponent₂) t
      (Multiset.mem_of_le (Multiset.sub_le_self _ _) member)
  have right : ∀ t ∈ exponents signature t₁ - exponents signature t₂, IsPart signature t := fun t member =>
    isPart_of_mem_bag sorted (regular_normal sorted exponent₁) t
      (Multiset.mem_of_le (Multiset.sub_le_self _ _) member)
  have itself {s : Term} (base : s.isRegular signature.f = true) (whole : value signature s = u) :
      EqualModulo signature (u.term signature) s := by
    rw [← whole]
    exact (equal_normal sorted base).symm
  by_cases noneLeft : exponents signature t₂ - exponents signature t₁ = 0
  · rw [noneLeft, Value.raise_zero] at first
    have below := tsub_eq_zero_iff_le.mp noneLeft
    by_cases noneRight : exponents signature t₁ - exponents signature t₂ = 0
    · rw [noneRight, Value.raise_zero] at second
      exact .agree ((equalModulo_iff_value sorted base₁ base₂).mpr (first.trans second.symm))
        ((equalModulo_iff_exponents sorted exponent₁ exponent₂).mpr
        (le_antisymm (tsub_eq_zero_iff_le.mp noneRight) below))
    · refine .second (regular_exponent sorted right noneRight) ?_
        (of_exponents_add sorted right noneRight exponent₂ exponent₁ (add_tsub_cancel_of_le below).symm)
      exact (of_raise sorted right noneRight base₂ second).trans (.pair _ (itself base₁ first) (.refl _))
  · by_cases noneRight : exponents signature t₁ - exponents signature t₂ = 0
    · rw [noneRight, Value.raise_zero] at second
      have below := tsub_eq_zero_iff_le.mp noneRight
      refine .first (regular_exponent sorted left noneLeft) ?_
        (of_exponents_add sorted left noneLeft exponent₁ exponent₂ (add_tsub_cancel_of_le below).symm)
      exact (of_raise sorted left noneLeft base₁ first).trans (.pair _ (itself base₂ second) (.refl _))
    · obtain ⟨whole₁, bag₁⟩ := bag_combine_exponent sorted left noneLeft exponent₁
      obtain ⟨whole₂, bag₂⟩ := bag_combine_exponent sorted right noneRight exponent₂
      have total : exponents signature t₁ + (exponents signature t₂ - exponents signature t₁) =
          exponents signature t₂ + (exponents signature t₁ - exponents signature t₂) := by
        rw [add_comm, ← Multiset.union_def, Multiset.union_comm, Multiset.union_def, add_comm]
      refine .common ?_ (of_raise sorted left noneLeft base₁ first) (of_raise sorted right noneRight base₂ second) ?_
      · simp [regular.term sorted, regular_exponent sorted left noneLeft, regular_exponent sorted right noneRight]
      · exact .trans (.pair _ (equal_normal sorted exponent₁) (.refl _))
          (.trans (of_bag sorted whole₁ whole₂ (bag₁.trans (total.trans bag₂.symm)))
            (.pair _ (equal_normal sorted exponent₂).symm (.refl _)))

end EqualModulo

end Cancellation

section Weight

variable {t : Term} {v : Value} {M : Multiset Term}

variable (sorted : signature.OneSorted)
include sorted

theorem size_shape_le (t : Term) : t.shape.size ≤ 1 + Term.weight signature.f t := by
  by_cases root : t.head? = some signature.f
  · exact Nat.le_of_eq (Term.size_shape_of_rooted sorted.f root)
  · rw [Term.weight_of_not_rooted root]
    omega

private theorem weight_exponent (parts : ∀ t ∈ M, IsPart signature t) :
    Term.weight signature.f (Value.exponent signature M) = (M.map Term.size).sum := by
  rw [Term.weight, bag_exponent sorted parts]

private theorem size_exponent_lt {N : Multiset Term} (parts : ∀ t ∈ M + N, IsPart signature t) (some : M ≠ 0)
    (others : N ≠ 0) :
    (Value.exponent signature M).shape.size < (Value.exponent signature (M + N)).shape.size := by
  have old : ∀ t ∈ M, IsPart signature t := fun t member => parts t (Multiset.mem_add.mpr (.inl member))
  have bound := size_shape_le sorted (Value.exponent signature M)
  have root : (Value.exponent signature (M + N)).head? = Option.some signature.f := by
    by_contra single
    have card := congrArg Multiset.card (bag_exponent sorted parts)
    rw [Term.bag_of_not_rooted single, Multiset.card_singleton, Multiset.card_add] at card
    have first := Multiset.card_pos.mpr some
    have second := Multiset.card_pos.mpr others
    omega
  obtain ⟨s, member⟩ := Multiset.exists_mem_of_ne_zero others
  obtain ⟨rest, rfl⟩ := Multiset.exists_cons_of_mem member
  have positive := s.size_pos
  rw [weight_exponent sorted old] at bound
  rw [Term.size_shape_of_rooted sorted.f root, weight_exponent sorted parts, Multiset.map_add, Multiset.sum_add,
    Multiset.map_cons, Multiset.sum_cons]
  omega

private theorem size_raise_lt (regular : v.Regular signature) (parts : ∀ t ∈ M, IsPart signature t) (some : M ≠ 0) :
    (v.term signature).shape.size < ((v.raise M).term signature).shape.size ∧
      (M.map Term.size).sum < ((v.raise M).term signature).shape.size := by
  have node {h : FunctionSymbol} {s t : Term} (free : h.theory = .free) :
      (Term.node h [s, t]).shape.size = 1 + (s.shape.size + t.shape.size) := by
    simp [Term.shape_node_of_free free, Term.size, Term.sizeList]
  induction v with
  | power base exponents =>
    have total : exponents + M ≠ 0 := by
      intro none
      have below := Multiset.le_add_left M exponents
      rw [none] at below
      exact some (Multiset.le_zero.mp below)
    have all : ∀ t ∈ exponents + M, IsPart signature t := fun t member =>
      (Multiset.mem_add.mp member).elim (regular.2 t) (parts t)
    have least := Term.weight_le_size sorted.f (Value.exponent signature (exponents + M))
    have positive := base.shape.size_pos
    rw [weight_exponent sorted all, Multiset.map_add, Multiset.sum_add] at least
    rw [Value.raise, Value.term, Value.term, if_neg total, node sorted.exp]
    split
    · omega
    next proper =>
      have larger := size_exponent_lt sorted all proper some
      rw [node sorted.exp]
      omega
  | pair left right first second =>
    obtain ⟨left₁, left₂⟩ := first regular.1
    obtain ⟨right₁, _⟩ := second regular.2
    rw [Value.raise, Value.term, Value.term, node sorted.g, node sorted.g]
    omega

private theorem head?_ne_of_free {g : FunctionSymbol} {ts : List Term} (free : g.theory = .free) :
    (Term.node g ts).head? ≠ some signature.f := by
  intro root
  rw [Term.head?, Option.some.injEq] at root
  rw [root, sorted.f] at free
  cases free

private theorem head?_raise (some : M ≠ 0) : ((v.raise M).term signature).head? ≠ Option.some signature.f := by
  cases v with
  | power base exponents =>
    have total : exponents + M ≠ 0 := fun none =>
      Value.raise_ne_plain (v := .power base exponents) some (congrArg (Value.power base) none)
    rw [Value.raise, Value.term, if_neg total]
    exact head?_ne_of_free sorted sorted.exp
  | pair left right => exact head?_ne_of_free sorted sorted.g

noncomputable def weight (signature : Signature) (t : Term) : Nat :=
  Term.weight signature.f (normal signature t)

omit sorted in
theorem weight_congr (lawful : signature.Lawful) {s t : Term} (equal : EqualModulo signature s t) :
    weight signature s = weight signature t := by
  rw [weight, normal, equal.value_eq lawful, weight, normal]

private theorem weight_le_size (t : Term) : weight signature t ≤ (normal signature t).shape.size :=
  Term.weight_le_size sorted.f _

private theorem weight_of_free {g : FunctionSymbol} {ts : List Term} (free : g.theory = .free) :
    Term.weight signature.f (Term.node g ts) = 1 + (ts.map (Term.size ∘ Term.shape)).sum := by
  rw [Term.weight_of_not_rooted (head?_ne_of_free sorted free), Term.shape_node_of_free free, Term.size,
    Term.sizeList_eq_sum, List.map_map]

private theorem weight_lt_combination {args : List Term} (many : 2 ≤ args.length)
    (regular : ∀ arg ∈ args, arg.isRegular signature.f = true) :
    ∀ arg ∈ args, weight signature arg < weight signature (.app signature.f args) := by
  intro arg member
  have normals : ∀ t ∈ args.map (normal signature), t.isAtLeastBinary signature.f = true := by
    intro t listed
    obtain ⟨origin, present, rfl⟩ := List.mem_map.mp listed
    exact Term.isAtLeastBinary_of_isRegular (regular_normal sorted (regular origin present))
  have kept : signature.f.theory ≠ .idempotent := by simp [sorted.f]
  rw [weight, weight, normal_combination sorted.toLawful, ← Term.shape_app kept,
    Term.weight_congr (Term.shape_shape _)]
  exact Term.weight_lt_app sorted.f (by simpa using many) normals _ (List.mem_map_of_mem member)

private theorem weight_lt_power {s : Term} (base : s.isRegular signature.f = true)
    (exponent : t.isRegular signature.f = true) :
    weight signature s < weight signature (signature.power s t) ∧
      weight signature t < weight signature (signature.power s t) := by
  have larger := size_raise_lt sorted (regular_value sorted base)
    (isPart_of_mem_bag sorted (regular_normal sorted exponent)) (exponents_ne_zero sorted exponent)
  have whole : weight signature (signature.power s t) =
      (((value signature s).raise (exponents signature t)).term signature).shape.size := by
    rw [weight, normal, value_power sorted.toLawful,
      Term.weight_of_not_rooted (head?_raise sorted (exponents_ne_zero sorted exponent))]
  rw [whole]
  exact ⟨Nat.lt_of_le_of_lt (weight_le_size sorted s) larger.1, larger.2⟩

private theorem weight_lt_pair (s t : Term) :
    weight signature s < weight signature (.app signature.g [s, t]) ∧
      weight signature t < weight signature (.app signature.g [s, t]) := by
  have first := weight_le_size sorted s
  have second := weight_le_size sorted t
  have whole : weight signature (.app signature.g [s, t]) =
      1 + ((normal signature s).shape.size + (normal signature t).shape.size) := by
    rw [weight, normal, value_pair sorted.toLawful, Value.term, weight_of_free sorted sorted.g]
    simp [normal]
  omega

private theorem weight_lt_free {h : FunctionSymbol} {args : List Term} (free : h.theory = .free)
    (plain : value signature (.app h args) = .power (Term.node h (args.map (normal signature))).shape 0) :
    ∀ arg ∈ args, weight signature arg < weight signature (.app h args) := by
  intro arg member
  have smaller := weight_le_size sorted arg
  have part : (normal signature arg).shape.size ≤
      ((args.map (normal signature)).map (Term.size ∘ Term.shape)).sum :=
    List.single_le_sum (by simp) _ (List.mem_map_of_mem (f := Term.size ∘ Term.shape) (List.mem_map_of_mem member))
  have total : weight signature (.app h args) =
      1 + ((args.map (normal signature)).map (Term.size ∘ Term.shape)).sum := by
    rw [weight, normal, plain, Value.term, if_pos rfl, Term.weight_congr (Term.shape_shape _),
      weight_of_free sorted free]
  omega

/-- The arguments of an application weigh less. -/
theorem weight_lt_app {h : FunctionSymbol} {args : List Term}
    (regular : (Term.node h args).isRegular signature.f = true) :
    ∀ arg ∈ args, weight signature arg < weight signature (.app h args) := by
  obtain ⟨symbol, _, many, each⟩ := Term.isRegular_node.mp regular
  by_cases combines : h = signature.f
  · subst combines
    exact weight_lt_combination sorted (by simpa using many) each
  · have free := symbol.resolve_left combines
    rcases EqualModulo.value_cases sorted h regular with ⟨rfl, s, t, rfl, _⟩ | ⟨rfl, s, t, rfl, _⟩ | plain
    · obtain ⟨base, exponent, _⟩ : s.isRegular signature.f = true ∧ t.isRegular signature.f = true ∧
          True := by simpa using each
      simpa [Signature.power] using weight_lt_power sorted base exponent
    · simpa using weight_lt_pair sorted s t
    · exact weight_lt_free sorted free plain

end Weight

end Equational.ExpAC
