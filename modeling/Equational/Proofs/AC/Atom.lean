import Equational.AC.Atom
import Equational.Proofs.Repetition
import Equational.Proofs.Term.Renaming
import Equational.Proofs.Unification.MostGeneral

/-! The combiner of a problem and the atoms of its equations. -/

namespace Equational.AC

section Combiners

variable {f : FunctionSymbol}

private theorem mem_combinersList {args : List Term} : f ∈ combinersList args ↔ ∃ arg ∈ args, f ∈ combiners arg := by
  induction args with
  | nil => simp [combinersList]
  | cons arg args ih => simp [combinersList, ih]

/-- The combiners are the associative-commutative ones among the applied symbols. -/
theorem mem_combiners {t : Term} : f ∈ combiners t ↔
    f ∈ t.symbols ∧ f.theory.isAssociative = true ∧ f.theory.isCommutative = true := by
  induction t with
  | var v => simp [combiners, Term.symbols]
  | const c => simp [combiners, Term.symbols]
  | node g args ih =>
    rw [combiners, List.mem_append, mem_combinersList, Term.mem_symbols_node]
    constructor
    · intro listed
      rcases listed with ⟨arg, member, inside⟩ | root
      · obtain ⟨applied, laws⟩ := (ih arg member).mp inside
        exact ⟨.inr ⟨arg, member, applied⟩, laws⟩
      · split at root
        next laws =>
          rw [List.mem_singleton] at root
          subst root
          exact ⟨.inl rfl, by simpa using laws⟩
        next => cases root
    · rintro ⟨occurs, laws⟩
      rcases occurs with rfl | ⟨arg, member, applied⟩
      · exact .inr (by simp [laws])
      · exact .inl ⟨arg, member, (ih arg member).mpr ⟨applied, laws⟩⟩

theorem combiner?_spec (equations : List Equation) :
    match combiner? equations with
    | .ok none => ∀ e ∈ equations, combiners e.lhs ++ combiners e.rhs = []
    | .ok (some f) => ∃ e ∈ equations, f ∈ combiners e.lhs ++ combiners e.rhs
    | .error failure => failure = .unsupported .severalCombiners := by
  rw [combiner?]
  cases shape : equations.flatMap fun e => combiners e.lhs ++ combiners e.rhs with
  | nil => exact List.flatMap_eq_nil_iff.mp shape
  | cons f others =>
    have member : f ∈ equations.flatMap fun e => combiners e.lhs ++ combiners e.rhs := by
      simp only [shape]
      exact List.mem_cons_self ..
    by_cases single : others.all (·.id == f.id) = true
    · simp only [single, ↓reduceIte]
      exact List.mem_flatMap.mp member
    · simp only [single, Bool.false_eq_true, ↓reduceIte]

theorem mem_of_combiner? {equations : List Equation} (found : combiner? equations = .ok (some f)) :
    ∃ e ∈ equations, f ∈ combiners e.lhs ++ combiners e.rhs := by
  have spec := combiner?_spec equations
  rwa [found] at spec

end Combiners

theorem asVariable_eq_some {t : Term} {v : Variable} (found : (t.asVariable == some v) = true) : t = .var v := by
  cases t <;> simp_all [Term.asVariable]

section Atoms

variable {f : FunctionSymbol} {equations : List Equation}

private theorem mem_members {P : Term → Prop} (substitutive : Term.Substitutive P) {side : Term} (holds : P side) :
    ∀ t ∈ members f side, P t := by
  simp only [members]
  split
  next rooted =>
    cases side with
    | node g args => exact substitutive.argument holds
    | var v => cases rooted
    | const c => cases rooted
  next =>
    intro t member
    rwa [List.mem_singleton.mp member]

theorem mem_activeAtoms {atom : Term} (active : atom ∈ activeAtoms f equations) :
    (∃ e ∈ equations, atom ∈ membersOf f e) ∧ ∃ e ∈ equations, balance f e atom ≠ 0 := by
  obtain ⟨listed, unbalanced⟩ := List.mem_filter.mp active
  obtain ⟨e, member, occurs⟩ := List.mem_flatMap.mp (List.mem_of_mem_eraseDups listed)
  exact ⟨⟨e, member, occurs⟩, by simpa using unbalanced⟩

theorem everySide_activeAtoms {P : Term → Prop} (substitutive : Term.Substitutive P)
    (sides : EverySide P equations) : ∀ atom ∈ activeAtoms f equations, P atom := by
  intro atom active
  obtain ⟨e, member, occurs⟩ := (mem_activeAtoms active).1
  rcases List.mem_append.mp occurs with left | right
  · exact mem_members substitutive (sides e member).1 atom left
  · exact mem_members substitutive (sides e member).2 atom right

end Atoms

end Equational.AC
