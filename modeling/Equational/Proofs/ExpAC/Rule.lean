import Equational.ExpAC.Rule
import Equational.Proofs.ExpAC.Acyclicity
import Equational.Proofs.ExpAC.State
import Equational.Proofs.Failure
import Equational.Proofs.Search

/-! Every rule refines the state it is applied to. A rule either finds nothing to apply to, or it puts
definitions in the place of one that it has found. Two definitions of one variable agree, so
either follows from the other and from what makes their right sides equal. Only the combining
of exponents needs an acyclic state, since there the removed definition must not be the one
that justifies its removal. -/

namespace Equational.ExpAC

open Search

/-- The three symbols are among the known ones, which go by their numbers. -/
structure Signature.Within (signature : Signature) (known : FunctionSymbol → Prop) : Prop where
  consistent : Consistent known
  exp : known signature.exp
  g : known signature.g
  f : known signature.f
  laws : signature.f.theory = .associativeCommutative

namespace State

variable {signature : Signature} {known : FunctionSymbol → Prop} {usable : Variable → Prop} {n n' : Nat}
  {state next : State} {m : Variable → Term}

section Inversion

theorem of_mem_powerPairs {p : Powers} (member : p ∈ state.powerPairs signature) :
    (p.first, p.second) ∈ state.pairs ∧ signature.expParts p.first.rhs = some (p.base₁, p.exponent₁) ∧
      signature.expParts p.second.rhs = some (p.base₂, p.exponent₂) := by
  obtain ⟨⟨e₁, e₂⟩, listed, found⟩ := List.mem_filterMap.mp member
  cases first : signature.expParts e₁.rhs with
  | none => simp [first] at found
  | some parts₁ =>
    cases second : signature.expParts e₂.rhs with
    | none => simp [first, second] at found
    | some parts₂ =>
      simp only [first, second, Option.bind_eq_bind, Option.bind_some, Option.pure_def, Option.some.injEq] at found
      subst found
      exact ⟨listed, first, second⟩

theorem mem_powerPairs {e₁ e₂ : Equation} {s₁ t₁ s₂ t₂ : Term}
    (listed : (e₁, e₂) ∈ state.pairs) (first : signature.expParts e₁.rhs = some (s₁, t₁))
    (second : signature.expParts e₂.rhs = some (s₂, t₂)) : ⟨e₁, e₂, s₁, t₁, s₂, t₂⟩ ∈ state.powerPairs signature :=
  List.mem_filterMap.mpr ⟨(e₁, e₂), listed, by simp [first, second]⟩

variable (signature state)

/-- Either no two powers share the part, or the other parts of two that do are made equal. -/
theorem mergePowers_cases (shared : Part) :
    (state.mergePowers signature shared = .ok none ∧
      ∀ p ∈ state.powerPairs signature, (p.part₁ shared == p.part₂ shared) = false) ∨
    ∃ p ∈ state.powerPairs signature, (p.part₁ shared == p.part₂ shared) = true ∧ state.mergePowers signature shared =
      (orient (p.part₁ shared.other) (p.part₂ shared.other) >>= fun add =>
        .ok (some (state.revise [p.second] add))) := by
  simp only [mergePowers]
  split
  next none => exact .inl ⟨rfl, by simpa using List.find?_eq_none.mp none⟩
  next p found => exact .inr ⟨p, List.mem_of_find?_eq_some found, by simpa using List.find?_some found, rfl⟩

theorem mergePairs_cases :
    (state.mergePairs signature = .ok none ∧ ∀ e₁ e₂, (e₁, e₂) ∈ state.pairs →
      signature.gParts e₁.rhs = none ∨ signature.gParts e₂.rhs = none) ∨
    ∃ e₁ e₂ u₁ v₁ u₂ v₂, (e₁, e₂) ∈ state.pairs ∧ signature.gParts e₁.rhs = some (u₁, v₁) ∧
      signature.gParts e₂.rhs = some (u₂, v₂) ∧ state.mergePairs signature =
      (orient u₁ u₂ >>= fun firsts => orient v₁ v₂ >>= fun seconds =>
        .ok (some (state.revise [e₂] (firsts ++ seconds)))) := by
  simp only [mergePairs]
  split
  next none =>
    refine .inl ⟨rfl, fun e₁ e₂ listed => ?_⟩
    have absent := List.findSome?_eq_none_iff.mp none (e₁, e₂) listed
    cases first : signature.gParts e₁.rhs with
    | none => exact .inl rfl
    | some parts₁ =>
      cases second : signature.gParts e₂.rhs with
      | none => exact .inr rfl
      | some parts₂ => simp [first, second] at absent
  next removed u₁ v₁ u₂ v₂ found =>
    obtain ⟨⟨e₁, e₂⟩, listed, same⟩ := List.exists_of_findSome?_eq_some found
    cases first : signature.gParts e₁.rhs with
    | none => simp [first] at same
    | some parts₁ =>
      cases second : signature.gParts e₂.rhs with
      | none => simp [first, second] at same
      | some parts₂ =>
        simp only [first, second, Option.bind_eq_bind, Option.bind_some, Option.pure_def, Option.some.injEq,
          Prod.mk.injEq] at same
        obtain ⟨rfl, rfl, rfl, rfl, rfl⟩ := same
        exact .inr ⟨e₁, e₂, _, _, _, _, listed, first, second, rfl⟩

theorem decompose_cases :
    (state.decompose signature = .ok none ∧ ∀ e₁ e₂, (e₁, e₂) ∈ state.pairs → ∀ h₁ xs h₂ ys, e₁.rhs = .node h₁ xs →
      e₂.rhs = .node h₂ ys → h₁.id = h₂.id → signature.isReserved h₁.id = true) ∨
    ∃ e₁ e₂ h₁ xs h₂ ys, (e₁, e₂) ∈ state.pairs ∧ e₁.rhs = .node h₁ xs ∧ e₂.rhs = .node h₂ ys ∧ h₁.id = h₂.id ∧
      signature.isReserved h₁.id = false ∧ state.decompose signature =
      (if xs.length != ys.length then .error (.arityMismatch xs.length ys.length)
        else (xs.zip ys).mapM (fun p => orient p.1 p.2) >>= fun added =>
          .ok (some (state.revise [e₂] added.flatten))) := by
  simp only [decompose]
  split
  next none =>
    refine .inl ⟨rfl, fun e₁ e₂ listed h₁ xs h₂ ys root₁ root₂ ids => ?_⟩
    have absent := List.findSome?_eq_none_iff.mp none (e₁, e₂) listed
    simpa [root₁, root₂, ids] using absent
  next removed xs ys found =>
    obtain ⟨⟨e₁, e₂⟩, listed, same⟩ := List.exists_of_findSome?_eq_some found
    dsimp only at same
    split at same
    next h₁ xs' h₂ ys' root₁ root₂ =>
      split at same
      next ids =>
        cases same
        rw [Bool.and_eq_true, beq_iff_eq, Bool.not_eq_true'] at ids
        refine .inr ⟨e₁, removed, h₁, xs, h₂, ys, listed, root₁, root₂, ids.1, ids.2, ?_⟩
        split <;> rfl
      next => cases same
    next => cases same

theorem eliminate_cases :
    (state.eliminate = .ok none ∧ ∀ e ∈ state.definitions.equations, ∀ x y, e.lhs = .var x → e.rhs ≠ .var y) ∨
    ∃ e ∈ state.definitions.equations, ∃ x y, e.lhs = .var x ∧ e.rhs = .var y ∧ state.eliminate =
      (Substitution.singleton x (.var y) >>= fun binding => .ok (some {
        definitions :=
          .ofList (((state.definitions.equations.filter (· != e)).map binding.applyEquation).filter (!·.isTrivial))
        solved := state.solved.compose binding })) := by
  simp only [eliminate]
  split
  next none =>
    refine .inl ⟨rfl, fun e listed x y left right => ?_⟩
    have absent := List.findSome?_eq_none_iff.mp none e listed
    simp [left, right] at absent
  next x y e found =>
    obtain ⟨e', listed, same⟩ := List.exists_of_findSome?_eq_some found
    split at same
    next x' y' left right =>
      cases same
      exact .inr ⟨e, listed, x, y, left, right, rfl⟩
    next => cases same

/-- Either no variable is defined by a power and a pair, or the power is spread over the pair. -/
theorem distribute_cases :
    (state.distribute signature = pure none ∧ ∀ e₁ e₂, (e₁, e₂) ∈ state.pairs ∨ (e₂, e₁) ∈ state.pairs →
      signature.expParts e₁.rhs = none ∨ signature.gParts e₂.rhs = none) ∨
    ∃ power pair s t u v, ((power, pair) ∈ state.pairs ∨ (pair, power) ∈ state.pairs) ∧
      signature.expParts power.rhs = some (s, t) ∧ signature.gParts pair.rhs = some (u, v) ∧
      state.distribute signature =
      (freshVariable signature.g.domain >>= fun v₁ => freshVariable signature.g.domain >>= fun v₂ => Search.ofExcept (
        define s (.app signature.g [.var v₁, .var v₂]) >>= fun base =>
        define u (signature.power (.var v₁) t) >>= fun first =>
        define v (signature.power (.var v₂) t) >>= fun second =>
        .ok (some (state.revise [pair] [base, first, second])))) := by
  simp only [distribute]
  split
  next none =>
    have absent {e₁ e₂ : Equation} (listed : (e₁, e₂) ∈ state.pairs) :=
      List.findSome?_eq_none_iff.mp none (e₁, e₂) listed
    refine .inl ⟨rfl, fun e₁ e₂ listed => ?_⟩
    cases first : signature.expParts e₁.rhs with
    | none => exact .inl rfl
    | some power =>
      cases second : signature.gParts e₂.rhs with
      | none => exact .inr rfl
      | some pair =>
        rcases listed with listed | listed
        · simpa [first, second] using absent listed
        · have found := absent listed
          cases other : signature.expParts e₂.rhs <;> cases other' : signature.gParts e₁.rhs <;>
            simp [first, second, other, other'] at found
  next removed s t u v found =>
    obtain ⟨⟨e₁, e₂⟩, listed, same⟩ := List.exists_of_findSome?_eq_some found
    dsimp only at same
    split at same
    next power pair left right =>
      cases same
      exact .inr ⟨e₁, removed, s, t, u, v, .inl listed, left, right, rfl⟩
    next =>
      split at same
      next pair power left right =>
        cases same
        exact .inr ⟨e₂, removed, s, t, u, v, .inr listed, right, left, rfl⟩
      next => cases same

/-- Either no base of a power is defined by a power, or the exponents of two powers are combined. -/
theorem composeExponents_cases : state.composeExponents signature = pure none ∨
    ∃ outer ∈ state.definitions.equations, ∃ inner ∈ state.definitions.equations, ∃ y s t₁ t₂, inner.lhs = .var y ∧
      signature.expParts outer.rhs = some (.var y, t₁) ∧ signature.expParts inner.rhs = some (s, t₂) ∧
      state.composeExponents signature =
        (freshVariable signature.f.range >>= fun z => pure (some (state.revise [outer]
        [⟨outer.lhs, signature.power s (.var z)⟩, ⟨.var z, signature.combine t₂ t₁⟩]))) := by
  simp only [composeExponents]
  split
  next => exact .inl rfl
  next outer s t₁ t₂ found =>
    obtain ⟨outer', listed, same⟩ := List.exists_of_findSome?_eq_some found
    split at same
    next y t left =>
      obtain ⟨inner, defined, same⟩ := List.exists_of_findSome?_eq_some same
      obtain ⟨⟨s', t'⟩, right, same⟩ := Option.map_eq_some_iff.mp same
      cases same
      obtain ⟨listed', root⟩ := List.mem_filter.mp defined
      have lhs : inner.lhs = .var y := by
        cases shape : inner.lhs <;> simp_all [Term.asVariable]
      exact .inr ⟨outer, listed, inner, listed', y, _, _, _, lhs, left, right, rfl⟩
    next => cases same

end Inversion

section Parts

variable {symbol : FunctionSymbol} {s t u : Term}

structure Parts (known : FunctionSymbol → Prop) (usable : Variable → Prop) (symbol : FunctionSymbol) (t s u : Term) :
    Prop where
  left : s.Fits known usable
  right : u.Fits known usable
  instance' : ∀ m, t.instantiate m = .app symbol [s.instantiate m, u.instantiate m]

theorem parts_of_partsOf (consistent : Consistent known) (root : known symbol) (fits : t.Fits known usable)
    (found : Signature.partsOf symbol t = some (s, u)) : Parts known usable symbol t s u := by
  simp only [Signature.partsOf] at found
  split at found
  next h x y =>
    split at found
    next same =>
      cases found
      obtain rfl := consistent h symbol (Term.over_node.mp fits.formed.spelled).1 root (by simpa using same)
      exact ⟨fits.argument s (by simp), fits.argument u (by simp), fun m => Term.instantiate_node m h [s, u]⟩
    next => cases found
  next => cases found

private theorem occurs_of_partsOf (found : Signature.partsOf symbol t = some (s, u)) :
    t.isVariable = false ∧ ∀ v ∈ s.vars, v ∈ t.vars := by
  simp only [Signature.partsOf] at found
  split at found
  next h x y =>
    split at found
    · cases found
      exact ⟨rfl, fun v occurs => Term.mem_varsList.mpr ⟨s, by simp, occurs⟩⟩
    · cases found
  next => cases found

end Parts

/-- The sides are equal, or one is a variable that the other defines. -/
theorem orient_cases {a b : Term} {add : List Equation} (oriented : orient a b = .ok add) :
    (a == b) = true ∧ add = [] ∨ (∃ v, a = .var v ∧ add = [⟨a, b⟩]) ∨ ∃ v, b = .var v ∧ add = [⟨b, a⟩] := by
  simp only [orient] at oriented
  split at oriented
  next same =>
    cases oriented
    exact .inl ⟨same, rfl⟩
  next =>
    split at oriented
    · cases oriented
      exact .inr (.inl ⟨_, rfl, rfl⟩)
    · cases oriented
      exact .inr (.inr ⟨_, rfl, rfl⟩)
    · cases oriented
    · cases oriented

section Orient

variable {P : Term → Prop} {a b : Term} {add : List Equation} {xs ys : List Term} {added : List (List Equation)}

private theorem everySide_orient (left : P a) (right : P b) (oriented : orient a b = .ok add) : EverySide P add := by
  rcases orient_cases oriented with ⟨_, rfl⟩ | ⟨_, _, rfl⟩ | ⟨_, _, rfl⟩
  · exact everySide_nil
  · exact List.forall_mem_singleton.mpr ⟨left, right⟩
  · exact List.forall_mem_singleton.mpr ⟨right, left⟩

theorem everySide_orientAll (left : ∀ x ∈ xs, P x) (right : ∀ y ∈ ys, P y)
    (oriented : (xs.zip ys).mapM (fun p => orient p.1 p.2) = .ok added) : EverySide P added.flatten := by
  intro e member
  obtain ⟨add, listed, inside⟩ := List.mem_flatten.mp member
  obtain ⟨⟨x, y⟩, zipped, oriented'⟩ := exists_of_mapM_ok oriented add listed
  obtain ⟨first, second⟩ := List.of_mem_zip zipped
  exact everySide_orient (left x first) (right y second) oriented' e inside

variable {E : Term → Term → Prop} (congruence : Term.Congruence E)
include congruence

/-- What is put in for two terms says that they are equal. -/
theorem holdsIn_orient_iff (oriented : orient a b = .ok add) :
    (∀ e ∈ add, e.HoldsIn E m) ↔ E (a.instantiate m) (b.instantiate m) := by
  rcases orient_cases oriented with ⟨same, rfl⟩ | ⟨_, _, rfl⟩ | ⟨_, _, rfl⟩
  · exact ⟨fun _ => congruence.of_shape (Term.instantiate_congr (Term.beq_iff_shape.mp same) m), fun _ => nofun⟩
  · exact List.forall_mem_singleton
  · exact List.forall_mem_singleton.trans ⟨congruence.symm, congruence.symm⟩

theorem holdsIn_orientAll_iff (lengths : xs.length = ys.length)
    (oriented : (xs.zip ys).mapM (fun p => orient p.1 p.2) = .ok added) :
    (∀ e ∈ added.flatten, e.HoldsIn E m) ↔ List.Forall₂ (fun x y => E (x.instantiate m) (y.instantiate m)) xs ys := by
  induction xs generalizing ys added with
  | nil =>
    cases ys with
    | cons y ys => cases lengths
    | nil =>
      cases oriented
      exact ⟨fun _ => .nil, fun _ => nofun⟩
  | cons x xs ih =>
    cases ys with
    | nil => cases lengths
    | cons y ys =>
      rw [List.zip_cons_cons, List.mapM_cons] at oriented
      obtain ⟨first, oriented₁, rest⟩ := exists_of_bind_eq_ok oriented
      obtain ⟨later, oriented₂, result⟩ := exists_of_bind_eq_ok rest
      cases result
      rw [List.forall₂_cons, ← holdsIn_orient_iff congruence oriented₁, ← ih (Nat.succ.inj lengths) oriented₂,
        List.flatten_cons, List.forall_mem_append]

end Orient

theorem refines_orient (signature : Signature) {a b : Term} {add : List Equation} (oriented : orient a b = .ok add)
    (left : a.Fits known usable) (right : b.Fits known usable) : EverySide (Term.Fits known usable) add ∧
      ∀ m, (∀ e ∈ add, e.HoldsModulo signature m) → EqualModulo signature (a.instantiate m) (b.instantiate m) :=
  ⟨everySide_orient left right oriented, fun _ => (holdsIn_orient_iff (EqualModulo.congruence signature) oriented).mp⟩

theorem eq_of_define {lhs rhs : Term} {e : Equation} (defined : define lhs rhs = .ok e) : e = ⟨lhs, rhs⟩ := by
  simp only [define] at defined
  split at defined <;> cases defined
  rfl

theorem mem_pairsOf {equations : List Equation} {e₁ e₂ : Equation} (member : (e₁, e₂) ∈ pairs.pairsOf equations) :
    [e₁, e₂].Sublist equations ∧ (e₁.lhs == e₂.lhs) = true := by
  induction equations with
  | nil => cases member
  | cons e rest ih =>
    rw [pairs.pairsOf, List.mem_append, List.mem_map] at member
    rcases member with ⟨d, inside, same⟩ | later
    · cases same
      obtain ⟨listed, equal⟩ := List.mem_filter.mp inside
      exact ⟨.cons_cons e₁ (List.singleton_sublist.mpr listed), equal⟩
    · exact ⟨.cons e (ih later).1, (ih later).2⟩

/-- Two definitions of one variable have equal right sides. -/
theorem HoldsIn.of_mem_pairs {E : Term → Term → Prop} (congruence : Term.Congruence E) (holds : state.HoldsIn E m)
    {e₁ e₂ : Equation} (listed : (e₁, e₂) ∈ state.pairs) : E (e₁.rhs.instantiate m) (e₂.rhs.instantiate m) := by
  obtain ⟨pair, same⟩ := mem_pairsOf listed
  have first := holds.definitions e₁ (pair.subset (by simp))
  have second := holds.definitions e₂ (pair.subset (by simp))
  have sides := congruence.of_shape (Term.instantiate_congr (Term.beq_iff_shape.mp same) m)
  exact congruence.trans (congruence.symm first) (congruence.trans sides second)

/-- One of two definitions of a variable may go when what comes makes their right sides equal. -/
theorem holdsIn_of_drop {E : Term → Term → Prop} (congruence : Term.Congruence E) {e₁ e₂ removed : Equation}
    {add : List Equation} (member : (e₁, e₂) ∈ state.pairs) (which : removed = e₁ ∨ removed = e₂)
    (agree : (∀ e ∈ add, e.HoldsIn E m) → E (e₁.rhs.instantiate m) (e₂.rhs.instantiate m))
    (holds : (state.revise [removed] add).HoldsIn E m) : state.HoldsIn E m := by
  obtain ⟨pair, same⟩ := mem_pairsOf member
  refine holdsIn_of_revise congruence (fun kept added => List.forall_mem_singleton.mpr ?_) holds
  have sides : E (e₁.lhs.instantiate m) (e₂.lhs.instantiate m) :=
    congruence.of_shape (Term.instantiate_congr (Term.beq_iff_shape.mp same) m)
  rcases which with rfl | rfl
  · have second := kept e₂ (Problem.mem_erase_first pair)
    exact congruence.trans sides (congruence.trans second (congruence.symm (agree added)))
  · obtain ⟨d, inside, equal⟩ := Problem.exists_mem_erase_second pair
    have first := (kept d inside).congr congruence equal
    exact congruence.trans (congruence.symm sides) (congruence.trans first (agree added))

theorem refines_drop {e₁ e₂ removed : Equation} {add : List Equation} (proper : state.Proper known n) (grown : n ≤ n')
    (member : (e₁, e₂) ∈ state.pairs ∨ (e₂, e₁) ∈ state.pairs) (which : removed = e₁ ∨ removed = e₂)
    (fits : EverySide (Term.Fits known (state.Usable n')) add)
    (agree : ∀ m, (∀ e ∈ add, e.HoldsModulo signature m) →
      EqualModulo signature (e₁.rhs.instantiate m) (e₂.rhs.instantiate m)) :
    Refines signature known n' state (state.revise [removed] add) := by
  refine ⟨proper_revise proper grown [removed] fits, fun m holds => holds_iff_holdsIn.mpr ?_⟩
  have congruence := EqualModulo.congruence signature
  have holdsIn := holds_iff_holdsIn.mp holds
  rcases member with member | member
  · exact holdsIn_of_drop congruence member which (agree m) holdsIn
  · exact holdsIn_of_drop congruence member which.symm (fun added => (agree m added).symm) holdsIn

structure Powers.Listed (signature : Signature) (known : FunctionSymbol → Prop) (n : Nat) (state : State)
    (p : Powers) : Prop where
  member : (p.first, p.second) ∈ state.pairs
  first : Parts known (state.Usable n) signature.exp p.first.rhs p.base₁ p.exponent₁
  second : Parts known (state.Usable n) signature.exp p.second.rhs p.base₂ p.exponent₂

section Listed

variable {p : Powers} (listed : p.Listed signature known n state)
include listed

private theorem Powers.Listed.fits (part : Part) :
    (p.part₁ part).Fits known (state.Usable n) ∧ (p.part₂ part).Fits known (state.Usable n) := by
  cases part with
  | base => exact ⟨listed.first.left, listed.second.left⟩
  | exponent => exact ⟨listed.first.right, listed.second.right⟩

/-- Powers with equal parts are equal. -/
theorem Powers.Listed.agree (part : Part)
    (shared : EqualModulo signature ((p.part₁ part).instantiate m) ((p.part₂ part).instantiate m))
    (others : EqualModulo signature ((p.part₁ part.other).instantiate m) ((p.part₂ part.other).instantiate m)) :
    EqualModulo signature (p.first.rhs.instantiate m) (p.second.rhs.instantiate m) := by
  rw [listed.first.instance', listed.second.instance']
  cases part with
  | base => exact .pair signature.exp shared others
  | exponent => exact .pair signature.exp others shared

end Listed

section Elimination

/-- The binding puts `y` for `x`. It is empty when the two are one variable. -/
structure Renames (binding : Substitution) (x y : Variable) : Prop where
  image : ∀ v, binding.image v = .var (if v = x then y else v)
  domain : ∀ v ∈ binding.domain, v = x ∧ x ≠ y

namespace Renames

variable {binding : Substitution} {x y : Variable}

private theorem range (renames : Renames binding x y) : ∀ t ∈ binding.range, t.WellFormed known := by
  intro t member
  obtain ⟨v, inside⟩ := Substitution.exists_of_mem_range member
  rw [← Substitution.image_of_mem inside, renames.image v]
  exact (Term.hereditary_wellFormed known).var _

private theorem eliminated (renames : Renames binding x y) {σ : Substitution} {v : Variable}
    (member : v ∈ (σ.compose binding).domain) :
    v ∈ σ.domain ∨ v = x ∧ x ≠ y := by
  obtain ⟨t, inside⟩ := Substitution.mem_domain_iff.mp member
  rcases Substitution.mem_bindings_compose.mp inside with ⟨u, old, _⟩ | ⟨new, _⟩
  · exact .inl (Substitution.mem_domain_iff.mpr ⟨u, old⟩)
  · exact .inr (renames.domain v (Substitution.mem_domain_iff.mpr ⟨t, new⟩))

/-- After the renaming, a term mentions `x` no more. -/
theorem uses (renames : Renames binding x y) (usable : state.Usable n y) {definitions : Problem} {t : Term}
    (uses : ∀ v ∈ t.vars, state.Usable n v) :
    ∀ v ∈ (binding.apply t).vars, State.Usable ⟨definitions, state.solved.compose binding⟩ n v := by
  intro v occurs
  obtain ⟨w, inside, found⟩ := Substitution.mem_vars_apply occurs
  have usable' := uses w inside
  rw [renames.image w, Term.vars, List.mem_singleton] at found
  subst found
  split
  · refine ⟨usable.1, ?_⟩
    intro member
    rcases renames.eliminated member with old | ⟨same, different⟩
    · exact usable.2 old
    · exact different same.symm
  next other =>
    refine ⟨usable'.1, ?_⟩
    intro member
    rcases renames.eliminated member with old | ⟨same, _⟩
    · exact usable'.2 old
    · exact other same

private theorem fits (renames : Renames binding x y) (usable : state.Usable n y) {definitions : Problem} {t : Term}
    (fits : t.Fits known (state.Usable n)) :
    (binding.apply t).Fits known (State.Usable ⟨definitions, state.solved.compose binding⟩ n) :=
  ⟨Substitution.apply_hereditary (Term.hereditary_wellFormed known) renames.range fits.formed,
    renames.uses usable fits.vars⟩

theorem proper (renames : Renames binding x y) (proper : state.Proper known n) (usableX : state.Usable n x)
    (usableY : state.Usable n y) (e : Equation) :
    Proper known n ⟨.ofList (((state.definitions.equations.filter (· != e)).map binding.applyEquation).filter
      (!·.isTrivial)), state.solved.compose binding⟩ := by
  refine ⟨?_, ?_, ?_⟩
  · intro d member
    have origin := Problem.mem_ofList member
    obtain ⟨d', inside, rfl⟩ := List.mem_map.mp (List.mem_of_mem_filter origin)
    have sides := proper.definitions d' (List.mem_of_mem_filter inside)
    exact ⟨renames.fits usableY sides.1, renames.fits usableY sides.2⟩
  · exact Substitution.range_compose (Term.hereditary_wellFormed known).substitutive proper.range renames.range
  · intro v member
    rcases renames.eliminated member with old | ⟨rfl, _⟩
    · exact proper.domain v old
    · exact usableX.1

/-- The renaming loses nothing and brings in nothing: what the eliminated variable stands for is read
off the eliminations, so the definition that is taken out holds again. -/
theorem holdsIn_iff {E : Term → Term → Prop} (congruence : Term.Congruence E) (renames : Renames binding x y)
    {e : Equation}
    (listed : e ∈ state.definitions.equations) (left : e.lhs = .var x) (right : e.rhs = .var y)
    (unbound : x ∉ state.solved.domain) :
    HoldsIn E ⟨.ofList (((state.definitions.equations.filter (· != e)).map binding.applyEquation).filter
      (!·.isTrivial)), state.solved.compose binding⟩ m ↔ state.HoldsIn E m := by
  have composed (v : Variable) : E (((state.solved.compose binding).image v).instantiate m)
      ((binding.apply (state.solved.image v)).instantiate m) :=
    congruence.of_shape (Term.instantiate_congr (Substitution.shape_image_compose _ _ v) m)
  -- Either way the two variables have equal values, so that the renaming changes no instance.
  have renamed (equal : E (m x) (m y)) (v : Variable) : E (m v) ((binding.image v).instantiate m) := by
    rw [renames.image v]
    split
    next same => exact same ▸ equal
    next => exact congruence.refl _
  constructor
  · rintro ⟨definitions, solved⟩
    have equal : E (m x) (m y) := by
      have value := congruence.trans (solved x) (composed x)
      rwa [Substitution.image_of_not_mem unbound, Substitution.apply_var, renames.image x, if_pos rfl] at value
    have bindings := renamed equal
    obtain ⟨_, kept⟩ := (Problem.holdsIn_insertAll_iff congruence).mp definitions
    refine ⟨fun d inside => ?_, fun v => congruence.trans (solved v)
      (congruence.trans (composed v) (congruence.apply bindings _))⟩
    by_cases same : (d == e) = true
    · have dropped : e.HoldsIn E m := by rwa [Equation.HoldsIn, left, right]
      exact dropped.congr congruence (BEq.symm same)
    · rw [← Equation.holdsIn_applyEquation_iff congruence bindings]
      cases trivial : (binding.applyEquation d).isTrivial with
      | true => exact Equation.holdsIn_of_isTrivial congruence trivial
      | false =>
        have remains : d ∈ state.definitions.equations.filter (· != e) :=
          List.mem_filter.mpr ⟨inside, by simpa [bne] using same⟩
        exact kept _ (List.mem_filter.mpr ⟨List.mem_map_of_mem remains, by simp [trivial]⟩)
  · rintro ⟨definitions, solved⟩
    have equal : E (m x) (m y) := by
      have value := definitions e listed
      rwa [Equation.HoldsIn, left, right] at value
    have bindings := renamed equal
    refine ⟨(Problem.holdsIn_insertAll_iff congruence).mpr ⟨nofun, ?_⟩, fun v => ?_⟩
    · intro d member
      obtain ⟨d', inside, rfl⟩ := List.mem_map.mp (List.mem_of_mem_filter member)
      exact (Equation.holdsIn_applyEquation_iff congruence bindings).mpr
        (definitions d' (List.mem_of_mem_filter inside))
    · have applied := congruence.symm (congruence.apply bindings (state.solved.image v))
      exact congruence.trans (solved v) (congruence.trans applied (congruence.symm (composed v)))

end Renames

end Elimination

section Rules

variable (within : signature.Within known) (proper : state.Proper known n)
include within proper

theorem listed_of_mem_powerPairs {p : Powers} (member : p ∈ state.powerPairs signature) :
    p.Listed signature known n state := by
  obtain ⟨listed, first, second⟩ := of_mem_powerPairs member
  have inside := (mem_pairsOf listed).1.subset
  exact ⟨listed, parts_of_partsOf within.consistent within.exp
    (proper.definitions p.first (inside (by simp))).2 first,
    parts_of_partsOf within.consistent within.exp (proper.definitions p.second (inside (by simp))).2 second⟩

private theorem refines_mergePowers {shared : Part} (applied : state.mergePowers signature shared = .ok (some next)) :
    Refines signature known n state next := by
  rcases mergePowers_cases signature state shared with ⟨none, _⟩ | ⟨p, member, equal, step⟩
  · rw [none] at applied
    cases applied
  · have listed := listed_of_mem_powerPairs within proper member
    rw [step] at applied
    obtain ⟨add, oriented, result⟩ := exists_of_bind_eq_ok applied
    cases result
    obtain ⟨first, second⟩ := listed.fits shared.other
    obtain ⟨fits, implied⟩ := refines_orient signature oriented first second
    exact refines_drop proper (Nat.le_refl n) (.inl listed.member) (.inr rfl) fits fun m added =>
      listed.agree shared (.of_shape (Term.instantiate_congr (Term.beq_iff_shape.mp equal) m)) (implied m added)

private theorem refines_mergePairs (applied : state.mergePairs signature = .ok (some next)) :
    Refines signature known n state next := by
  rcases mergePairs_cases signature state with ⟨none, _⟩ | ⟨e₁, e₂, u₁, v₁, u₂, v₂, listed, first, second, step⟩
  · rw [none] at applied
    cases applied
  · have inside := (mem_pairsOf listed).1.subset
    have left := parts_of_partsOf within.consistent within.g (proper.definitions e₁ (inside (by simp))).2 first
    have right := parts_of_partsOf within.consistent within.g (proper.definitions e₂ (inside (by simp))).2 second
    rw [step] at applied
    obtain ⟨firsts, oriented₁, rest⟩ := exists_of_bind_eq_ok applied
    obtain ⟨seconds, oriented₂, result⟩ := exists_of_bind_eq_ok rest
    cases result
    obtain ⟨fits₁, implied₁⟩ := refines_orient signature oriented₁ left.left right.left
    obtain ⟨fits₂, implied₂⟩ := refines_orient signature oriented₂ left.right right.right
    refine refines_drop proper (Nat.le_refl n) (.inl listed) (.inr rfl) (List.forall_mem_append.mpr ⟨fits₁, fits₂⟩) ?_
    intro m added
    obtain ⟨added₁, added₂⟩ := List.forall_mem_append.mp added
    rw [left.instance', right.instance']
    exact .pair signature.g (implied₁ m added₁) (implied₂ m added₂)

omit within in
/-- Two applications whose symbols have one number are applications of one symbol. -/
theorem root_eq_of_mem_pairs (consistent : Consistent known) {e₁ e₂ : Equation} {h₁ h₂ : FunctionSymbol}
    {xs ys : List Term} (listed : (e₁, e₂) ∈ state.pairs)
    (root₁ : e₁.rhs = .node h₁ xs) (root₂ : e₂.rhs = .node h₂ ys) (ids : h₁.id = h₂.id) : h₁ = h₂ := by
  have inside := (mem_pairsOf listed).1.subset
  have left := (proper.definitions e₁ (inside (by simp))).2.formed.spelled
  have right := (proper.definitions e₂ (inside (by simp))).2.formed.spelled
  rw [root₁] at left
  rw [root₂] at right
  exact consistent h₁ h₂ (Term.over_node.mp left).1 (Term.over_node.mp right).1 ids

private theorem refines_decompose (applied : state.decompose signature = .ok (some next)) :
    Refines signature known n state next := by
  rcases decompose_cases signature state with ⟨none, _⟩ | ⟨e₁, e₂, h₁, xs, h₂, ys, listed, root₁, root₂, ids, _, step⟩
  · rw [none] at applied
    cases applied
  · have inside := (mem_pairsOf listed).1.subset
    have left := (proper.definitions e₁ (inside (by simp))).2
    have right := (proper.definitions e₂ (inside (by simp))).2
    obtain rfl := root_eq_of_mem_pairs proper within.consistent listed root₁ root₂ ids
    rw [root₁] at left
    rw [root₂] at right
    rw [step] at applied
    split at applied
    · cases applied
    next lengths =>
      obtain ⟨added, oriented, result⟩ := exists_of_bind_eq_ok applied
      cases result
      have congruence := EqualModulo.congruence signature
      have fits := everySide_orientAll left.argument right.argument oriented
      refine refines_drop proper (Nat.le_refl n) (.inl listed) (.inr rfl) fits ?_
      intro m holds
      rw [root₁, root₂, Term.instantiate_node, Term.instantiate_node]
      exact congruence.app_map ((holdsIn_orientAll_iff congruence (by simpa using lengths) oriented).mp holds)

omit within in
private theorem refines_eliminate (applied : state.eliminate = .ok (some next)) :
    Refines signature known n state next := by
  rcases eliminate_cases state with ⟨none, _⟩ | ⟨e, listed, x, y, left, right, step⟩
  · rw [none] at applied
    cases applied
  · rw [step] at applied
    obtain ⟨binding, bound, result⟩ := exists_of_bind_eq_ok applied
    cases result
    obtain ⟨images, domain⟩ := Substitution.singleton_var bound
    have usableX : state.Usable n x := (proper.definitions e listed).1.vars x (by simp [left, Term.vars])
    have usableY : state.Usable n y := (proper.definitions e listed).2.vars y (by simp [right, Term.vars])
    have renames : Renames binding x y := ⟨images, domain⟩
    refine ⟨renames.proper proper usableX usableY e, fun m holds => ?_⟩
    rw [holds_iff_holdsIn] at holds ⊢
    exact (renames.holdsIn_iff (EqualModulo.congruence signature) listed left right usableX.2).mp holds

end Rules

private theorem not_mem_vars_of_acyclic (acyclic : state.checkAcyclic = .ok ()) {e : Equation}
    (listed : e ∈ state.definitions.equations)
    {x : Variable} (left : e.lhs = .var x) (proper : e.rhs.isVariable = false) : x ∉ e.rhs.vars :=
  fun occurs => checkAcyclic_eq_ok_iff.mp acyclic x (.single ⟨e, listed, left, proper, occurs⟩)

section Searches

variable {session : Session} {fails : Failure → Prop}

/-- A fresh variable can be used in the definitions. -/
theorem ends_freshUsable (proper : state.Proper known session.names) (sort : SortId) :
    (freshVariable sort).Ends session (fun v after => state.Usable after.names v) fails :=
  ends_freshVariable sort fun after names => by
    refine proper.usable_fresh (Nat.le_refl session.names) ?_
    rw [names]
    exact Nat.lt_succ_self _

theorem Parts.mono {usable usable' : Variable → Prop} {symbol : FunctionSymbol} {t s u : Term}
    (parts : Parts known usable symbol t s u) (weaker : ∀ v, usable v → usable' v) :
    Parts known usable' symbol t s u :=
  ⟨parts.left.mono weaker, parts.right.mono weaker, parts.instance'⟩

variable (within : signature.Within known) (proper : state.Proper known session.names)
include within proper

private theorem refines_spread {power pair : Equation} {s t u v : Term} {v₁ v₂ : Variable}
    (grown : session.names ≤ n') (listed : (power, pair) ∈ state.pairs ∨ (pair, power) ∈ state.pairs)
    (powerParts : Parts known (state.Usable session.names) signature.exp power.rhs s t)
    (pairParts : Parts known (state.Usable session.names) signature.g pair.rhs u v)
    (usable₁ : state.Usable n' v₁) (usable₂ : state.Usable n' v₂) :
    Refines signature known n' state (state.revise [pair] [⟨s, .app signature.g [.var v₁, .var v₂]⟩,
      ⟨u, signature.power (.var v₁) t⟩, ⟨v, signature.power (.var v₂) t⟩]) := by
  have power' := powerParts.mono fun _ usable => usable.mono grown
  have pair' := pairParts.mono fun _ usable => usable.mono grown
  have name₁ : (Term.var v₁).Fits known (state.Usable n') := .var usable₁
  have name₂ : (Term.var v₂).Fits known (state.Usable n') := .var usable₂
  have fits : EverySide (Term.Fits known (state.Usable n')) [⟨s, .app signature.g [.var v₁, .var v₂]⟩,
      ⟨u, signature.power (.var v₁) t⟩, ⟨v, signature.power (.var v₂) t⟩] := by
    simp only [everySide_cons, everySide_nil, and_true]
    exact ⟨⟨power'.left, .pair within.g name₁ name₂⟩, ⟨pair'.left, .pair within.exp name₁ power'.right⟩,
      ⟨pair'.right, .pair within.exp name₂ power'.right⟩⟩
  refine refines_drop proper grown listed (.inr rfl) fits fun m added => ?_
  rw [power'.instance', pair'.instance']
  simp only [List.forall_mem_cons] at added
  obtain ⟨base, first, second, _⟩ := added
  exact .of_distribute base.pair first.pair second.pair

private theorem ends_distribute : (state.distribute signature).Ends session
    (fun result after => ∀ next, result = some next → Refines signature known after.names state next)
      (fun _ => True) := by
  rcases distribute_cases signature state with ⟨none, _⟩ | ⟨power, pair, s, t, u, v, listed, left, right, step⟩
  · rw [none]
    exact ends_pure nofun
  · have definitions : power ∈ state.definitions.equations ∧ pair ∈ state.definitions.equations := by
      rcases listed with listed | listed
      · exact ⟨(mem_pairsOf listed).1.subset (by simp), (mem_pairsOf listed).1.subset (by simp)⟩
      · exact ⟨(mem_pairsOf listed).1.subset (by simp), (mem_pairsOf listed).1.subset (by simp)⟩
    have powerParts := parts_of_partsOf within.consistent within.exp (proper.definitions power definitions.1).2 left
    have pairParts := parts_of_partsOf within.consistent within.g (proper.definitions pair definitions.2).2 right
    rw [step]
    refine (ends_freshUsable proper signature.g.domain).bind ?_
    intro v₁ during grown usable₁
    refine (ends_freshUsable (proper.mono grown) signature.g.domain).bind ?_
    intro v₂ after grown' usable₂
    refine ends_ofExcept ?_ fun _ _ => trivial
    intro result succeeded next same
    obtain ⟨base, define₁, rest⟩ := exists_of_bind_eq_ok succeeded
    obtain ⟨first, define₂, rest⟩ := exists_of_bind_eq_ok rest
    obtain ⟨second, define₃, rest⟩ := exists_of_bind_eq_ok rest
    cases rest
    cases same
    rw [eq_of_define define₁, eq_of_define define₂, eq_of_define define₃]
    exact refines_spread within proper (by omega) listed powerParts pairParts (usable₁.mono grown') usable₂

theorem fits_fold {outer inner : Equation} {y z : Variable} {s t₁ t₂ : Term} (grown : session.names ≤ n')
    (listed : outer ∈ state.definitions.equations)
    (outerParts : Parts known (state.Usable session.names) signature.exp outer.rhs (.var y) t₁)
    (innerParts : Parts known (state.Usable session.names) signature.exp inner.rhs s t₂)
    (usable : state.Usable n' z) :
    EverySide (Term.Fits known (state.Usable n'))
      [⟨outer.lhs, signature.power s (.var z)⟩, ⟨.var z, signature.combine t₂ t₁⟩] := by
  have outer' := outerParts.mono fun _ usable => usable.mono grown
  have inner' := innerParts.mono fun _ usable => usable.mono grown
  have defines := ((proper.mono grown).definitions outer listed).1
  have name : (Term.var z).Fits known (state.Usable n') := .var usable
  simp only [everySide_cons, everySide_nil, and_true]
  exact ⟨⟨defines, .pair within.exp inner'.left name⟩, ⟨name, .pair within.f inner'.right outer'.right⟩⟩

/-- A power of a power is one power, with the exponents combined. -/
theorem refines_fold {outer inner : Equation} {s t₁ t₂ : Term} {y z : Variable} (grown : session.names ≤ n')
    (listed : outer ∈ state.definitions.equations) (listed' : inner ∈ state.definitions.equations)
    (different : (inner == outer) = false) (lhs : inner.lhs = .var y)
    (outerParts : Parts known (state.Usable session.names) signature.exp outer.rhs (.var y) t₁)
    (innerParts : Parts known (state.Usable session.names) signature.exp inner.rhs s t₂)
    (usable : state.Usable n' z) :
    Refines signature known n' state (state.revise [outer]
      [⟨outer.lhs, signature.power s (.var z)⟩, ⟨.var z, signature.combine t₂ t₁⟩]) := by
  refine refines_revise proper grown (fits_fold within proper grown listed outerParts innerParts usable) ?_
  intro m kept added
  simp only [List.forall_mem_cons] at added
  obtain ⟨combined, exponent, _⟩ := added
  have remains : inner ∈ (state.definitions.erase outer).equations :=
    (Problem.mem_erase_or listed' outer).resolve_right (by simp [different])
  have base := kept inner remains
  rw [Equation.HoldsModulo, lhs, innerParts.instance'] at base
  have power := combined.pair.trans (.symm (.of_power base exponent.pair))
  refine List.forall_mem_singleton.mpr ?_
  rwa [Equation.HoldsModulo, outerParts.instance']

private theorem ends_composeExponents (acyclic : state.checkAcyclic = .ok ()) :
    (state.composeExponents signature).Ends session
    (fun result after => ∀ next, result = some next → Refines signature known after.names state next)
      (fun _ => True) := by
  rcases composeExponents_cases signature state with none | ⟨outer, listed, inner, listed', y, s, t₁, t₂, lhs, left,
    right, step⟩
  · rw [none]
    exact ends_pure nofun
  · have outerParts := parts_of_partsOf within.consistent within.exp (proper.definitions outer listed).2 left
    have innerParts := parts_of_partsOf within.consistent within.exp (proper.definitions inner listed').2 right
    -- Were the two one definition, its variable would occur in its own definition.
    have different : (inner == outer) = false := by
      by_contra same
      rw [Bool.not_eq_false] at same
      have roots := Term.beq_iff_shape.mp (Equation.beq_iff.mp same).1
      rw [lhs] at roots
      have itself : outer.lhs = .var y := by
        cases shape : outer.lhs <;> simp_all [Term.shape]
      obtain ⟨proper, occurs⟩ := occurs_of_partsOf left
      exact not_mem_vars_of_acyclic acyclic listed itself proper (occurs y (by simp [Term.vars]))
    rw [step]
    refine (ends_freshUsable proper signature.f.range).bind ?_
    intro z after grown usable
    refine ends_pure ?_
    intro next same
    cases same
    exact refines_fold within proper grown listed listed' different lhs outerParts innerParts usable

/-- Every rule but the combining of exponents refines the state, cyclic or not. -/
theorem ends_apply_of_ne {rule : Rule} (other : rule ≠ .compose) : (state.apply signature rule).Ends session
    (fun result after => ∀ next, result = some next → Refines signature known after.names state next)
      (fun _ => True) := by
  have pure' {outcome : Except Failure (Option State)}
      (refines : ∀ next, outcome = .ok (some next) → Refines signature known session.names state next) :
      (Search.ofExcept outcome).Ends session
        (fun result after => ∀ next, result = some next → Refines signature known after.names state next)
        (fun _ => True) :=
    ends_ofExcept (fun result applied next same => refines next (same ▸ applied)) fun _ _ => trivial
  cases rule with
  | eliminate => exact pure' fun next applied => refines_eliminate proper applied
  | sameBase => exact pure' fun next applied => refines_mergePowers within proper applied
  | sameExponent => exact pure' fun next applied => refines_mergePowers within proper applied
  | mergePairs => exact pure' fun next applied => refines_mergePairs within proper applied
  | decompose => exact pure' fun next applied => refines_decompose within proper applied
  | distribute => exact ends_distribute within proper
  | compose => exact absurd rfl other

/-- Every rule refines an acyclic state. -/
theorem ends_apply (acyclic : state.checkAcyclic = .ok ()) (rule : Rule) : (state.apply signature rule).Ends session
    (fun result after => ∀ next, result = some next → Refines signature known after.names state next)
      (fun _ => True) := by
  by_cases compose : rule = .compose
  · subst compose
    exact ends_composeExponents within proper acyclic
  · exact ends_apply_of_ne within proper compose

end Searches

end State

end Equational.ExpAC
