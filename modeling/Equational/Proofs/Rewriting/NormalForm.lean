import Equational.Proofs.Term.Position
import Equational.Rewriting.System

/-! What rewriting computes. A step is described by where it happens: the first rule that matches somewhere,
at its first match in lexicographic order of the positions. Normalisation follows such steps and returns
the irreducible term they lead to, under a bound exactly if it is reached within the bound. -/

namespace Equational

private theorem findSome?_eq_some_iff_of_pairwise {α β : Type} [LT α] {xs : List α} (increasing : xs.Pairwise (· < ·))
    (asymm : ∀ x y : α, x < y → ¬ y < x) {f : α → Option β} {b : β} :
    xs.findSome? f = some b ↔ ∃ x ∈ xs, f x = some b ∧ ∀ y ∈ xs, y < x → f y = none := by
  rw [List.findSome?_eq_some_iff]
  constructor
  · rintro ⟨before, x, after, rfl, result, nothing⟩
    refine ⟨x, by simp, result, fun y member less => ?_⟩
    obtain ⟨_, later, _⟩ := List.pairwise_append.mp increasing
    rcases List.mem_append.mp member with earlier | same | behind
    · exact nothing y earlier
    · exact absurd less (asymm _ _ less)
    · exact absurd ((List.pairwise_cons.mp later).1 y ‹_›) (asymm _ _ less)
  · rintro ⟨x, member, result, nothing⟩
    obtain ⟨before, after, rfl⟩ := List.append_of_mem member
    obtain ⟨_, _, apart⟩ := List.pairwise_append.mp increasing
    exact ⟨before, x, after, rfl, result, fun y earlier =>
      nothing y (List.mem_append_left _ earlier) (apart y earlier x List.mem_cons_self)⟩

variable {t u n : Term} {path : List Nat}

namespace RewriteRule

variable {rule : RewriteRule}

def MatchesAt (rule : RewriteRule) (t : Term) (path : List Nat) : Prop :=
  ∃ s σ, t.subtermAt path = some s ∧ rule.lhs.match? s = some σ

/-- The rule matches at the position, and the instance of its right side takes the place of what is there. -/
def RewritesAt (rule : RewriteRule) (t : Term) (path : List Nat) (u : Term) : Prop :=
  ∃ s σ, t.subtermAt path = some s ∧ rule.lhs.match? s = some σ ∧ Term.replaceAt (σ.apply rule.rhs) path t = some u

def Inert (rule : RewriteRule) (t : Term) : Prop :=
  ∀ path, ¬ rule.MatchesAt t path

/-- The rule rewrites at the outermost and then leftmost position where it matches. -/
def Rewrites (rule : RewriteRule) (t u : Term) : Prop :=
  ∃ path, rule.RewritesAt t path u ∧ ∀ earlier < path, ¬ rule.MatchesAt t earlier

private theorem rewriteAt?_eq_some_iff : rule.rewriteAt? t path = some u ↔ rule.RewritesAt t path u := by
  simp only [rewriteAt?, RewritesAt, Option.bind_eq_bind, Option.bind_eq_some_iff]
  constructor
  · rintro ⟨s, found, σ, matched, replaced⟩
    exact ⟨s, σ, found, matched, replaced⟩
  · rintro ⟨s, σ, found, matched, replaced⟩
    exact ⟨s, found, σ, matched, replaced⟩

private theorem rewriteAt?_eq_none_iff : rule.rewriteAt? t path = none ↔ ¬ rule.MatchesAt t path := by
  rw [← not_iff_not, not_not, ← ne_eq, Option.ne_none_iff_exists']
  simp only [rewriteAt?_eq_some_iff]
  constructor
  · rintro ⟨u, s, σ, found, matched, _⟩
    exact ⟨s, σ, found, matched⟩
  · rintro ⟨s, σ, found, matched⟩
    obtain ⟨u, replaced⟩ := Term.exists_replaceAt_iff.mpr ⟨s, found⟩
    exact ⟨u, s, σ, found, matched, replaced⟩

private theorem MatchesAt.mem_positions (matching : rule.MatchesAt t path) : path ∈ t.positions :=
  have ⟨s, _, found, _⟩ := matching
  Term.mem_positions.mpr ⟨s, found⟩

theorem rewrite?_eq_none_iff : rule.rewrite? t = none ↔ rule.Inert t := by
  simp only [rewrite?, List.findSome?_eq_none_iff, rewriteAt?_eq_none_iff]
  exact ⟨fun each path matching => each path matching.mem_positions matching, fun inert path _ => inert path⟩

private theorem rewrite?_eq_some_iff : rule.rewrite? t = some u ↔ rule.Rewrites t u := by
  rw [rewrite?, findSome?_eq_some_iff_of_pairwise t.pairwise_positions fun _ _ => List.lt_asymm]
  simp only [rewriteAt?_eq_some_iff, rewriteAt?_eq_none_iff]
  constructor
  · rintro ⟨path, _, rewrites, first⟩
    exact ⟨path, rewrites, fun earlier less matching => first earlier matching.mem_positions less matching⟩
  · rintro ⟨path, ⟨s, σ, found, rest⟩, first⟩
    exact ⟨path, Term.mem_positions.mpr ⟨s, found⟩, ⟨s, σ, found, rest⟩, fun earlier _ less => first earlier less⟩

end RewriteRule

namespace RewriteSystem

variable {system : RewriteSystem}

def Irreducible (system : RewriteSystem) (t : Term) : Prop :=
  ∀ rule ∈ system.rules, rule.Inert t

/-- The first rule that matches anywhere rewrites the term. -/
def Step (system : RewriteSystem) (t u : Term) : Prop :=
  ∃ before rule after, system.rules = before ++ rule :: after ∧ (∀ earlier ∈ before, earlier.Inert t) ∧
    rule.Rewrites t u

/-- So many steps lead from the one term to the other. -/
inductive Steps (system : RewriteSystem) : Nat → Term → Term → Prop
  | refl (t : Term) : Steps system 0 t t
  | head {k : Nat} {t u n : Term} : system.Step t u → Steps system k u n → Steps system (k + 1) t n

theorem step?_eq_none_iff : system.step? t = none ↔ system.Irreducible t := by
  simp only [step?, List.findSome?_eq_none_iff, RewriteRule.rewrite?_eq_none_iff, Irreducible]

theorem step?_eq_some_iff : system.step? t = some u ↔ system.Step t u := by
  simp only [step?, List.findSome?_eq_some_iff, RewriteRule.rewrite?_eq_none_iff,
    RewriteRule.rewrite?_eq_some_iff, Step]
  constructor
  · rintro ⟨before, rule, after, split, rewrites, inert⟩
    exact ⟨before, rule, after, split, inert, rewrites⟩
  · rintro ⟨before, rule, after, split, inert, rewrites⟩
    exact ⟨before, rule, after, split, rewrites, inert⟩

private theorem Irreducible.not_step (irreducible : system.Irreducible t) : ¬ system.Step t u := by
  intro step
  cases (step?_eq_none_iff.mpr irreducible).symm.trans (step?_eq_some_iff.mpr step)

theorem Irreducible.argument {f : FunctionSymbol} {args : List Term}
    (irreducible : system.Irreducible (.node f args)) :
    ∀ arg ∈ args, system.Irreducible arg := by
  rintro arg member rule inside path ⟨s, σ, found, matched⟩
  obtain ⟨i, place⟩ := List.mem_iff_getElem?.mp member
  refine irreducible rule inside (i :: path) ⟨s, σ, ?_, matched⟩
  rw [Term.subtermAt, Term.arguments, place]
  exact found

private theorem Steps.eq_of_irreducible {k : Nat} (steps : system.Steps k t n) (irreducible : system.Irreducible t) :
    t = n := by
  cases steps with
  | refl => rfl
  | head step _ => exact absurd step irreducible.not_step

private theorem Steps.tail {k : Nat} (steps : system.Steps k t n) (irreducible : system.Irreducible n)
    (stepped : system.Step t u) :
    ∃ j, k = j + 1 ∧ system.Steps j u n := by
  cases steps with
  | refl => exact absurd stepped irreducible.not_step
  | @head j _ u' _ step rest =>
    have same : some u' = some u := (step?_eq_some_iff.mpr step).symm.trans (step?_eq_some_iff.mpr stepped)
    cases same
    exact ⟨j, rfl, rest⟩

private theorem normalForm?_eq_some_iff {bound : Nat} :
    system.normalForm? bound t = some n ↔ ∃ k ≤ bound, system.Steps k t n ∧ system.Irreducible n := by
  induction bound generalizing t with
  | zero =>
    simp only [normalForm?, Option.isNone_iff_eq_none, step?_eq_none_iff, Option.ite_none_right_eq_some,
      Option.some.injEq]
    constructor
    · rintro ⟨irreducible, rfl⟩
      exact ⟨0, le_rfl, .refl t, irreducible⟩
    · rintro ⟨k, none, steps, irreducible⟩
      obtain rfl := Nat.le_zero.mp none
      cases steps
      exact ⟨irreducible, rfl⟩
  | succ bound ih =>
    simp only [normalForm?]
    split
    next last =>
      have irreducible := step?_eq_none_iff.mp last
      constructor
      · intro same
        cases same
        exact ⟨0, Nat.zero_le _, .refl _, irreducible⟩
      · rintro ⟨k, _, steps, _⟩
        exact congrArg some (steps.eq_of_irreducible irreducible)
    next next stepped =>
      have step := step?_eq_some_iff.mp stepped
      rw [ih]
      constructor
      · rintro ⟨k, within, steps, irreducible⟩
        exact ⟨k + 1, by omega, .head step steps, irreducible⟩
      · rintro ⟨k, within, steps, irreducible⟩
        obtain ⟨j, rfl, rest⟩ := steps.tail irreducible step
        exact ⟨j, by omega, rest, irreducible⟩

/-- Without a bound the steps are followed for as long as there are any. -/
theorem exhaust?_eq_some_iff : system.exhaust? t = some n ↔ ∃ k, system.Steps k t n ∧ system.Irreducible n := by
  constructor
  · refine exhaust?.partial_correctness system (fun t n => ∃ k, system.Steps k t n ∧ system.Irreducible n)
      (fun rec ih t n reached => ?_) t n
    split at reached
    next last =>
      cases reached
      exact ⟨0, .refl t, step?_eq_none_iff.mp last⟩
    next next stepped =>
      obtain ⟨k, steps, irreducible⟩ := ih next n reached
      exact ⟨k + 1, .head (step?_eq_some_iff.mp stepped) steps, irreducible⟩
  · rintro ⟨k, steps, irreducible⟩
    induction steps with
    | refl t => rw [exhaust?, step?_eq_none_iff.mpr irreducible]
    | head step _ ih =>
      rw [exhaust?, step?_eq_some_iff.mpr step]
      exact ih irreducible

theorem normalize_some_eq_ok_iff {bound : Nat} :
    system.normalize (some bound) t = some (.ok n) ↔ ∃ k ≤ bound, system.Steps k t n ∧ system.Irreducible n := by
  rw [← normalForm?_eq_some_iff]
  cases outcome : system.normalForm? bound t <;> simp [normalize, outcome]

theorem normalize_none_eq_ok_iff : system.normalize none t = some (.ok n) ↔ ∃ k, system.Steps k t n ∧
    system.Irreducible n := by
  rw [← exhaust?_eq_some_iff]
  cases outcome : system.exhaust? t <;> simp [normalize, outcome]

theorem exists_steps_of_normalize {bound : Option Nat} (normal : system.normalize bound t = some (.ok n)) :
    ∃ k, system.Steps k t n ∧ system.Irreducible n := by
  cases bound with
  | none => exact normalize_none_eq_ok_iff.mp normal
  | some bound =>
    obtain ⟨k, _, reached⟩ := normalize_some_eq_ok_iff.mp normal
    exact ⟨k, reached⟩

/-- Under a bound the result is the irreducible term reached within it, and a failure says that there is
none. What is found under a bound is found under every larger one and without one, and nothing but
irreducible terms is ever returned. -/
theorem normalize_exact (system : RewriteSystem) (t : Term) :
    (∀ bound n, system.normalize (some bound) t = some (.ok n) ↔
      ∃ k ≤ bound, system.Steps k t n ∧ system.Irreducible n) ∧
    (∀ bound failure, system.normalize (some bound) t = some (.error failure) ↔
      failure = .boundExceeded bound ∧ ¬ ∃ n, ∃ k ≤ bound, system.Steps k t n ∧ system.Irreducible n) ∧
    (∀ n, system.normalize none t = some (.ok n) ↔ ∃ k, system.Steps k t n ∧ system.Irreducible n) ∧
    (∀ failure, system.normalize none t ≠ some (.error failure)) ∧
    (∀ bound larger n, bound ≤ larger → system.normalize (some bound) t = some (.ok n) →
      system.normalize (some larger) t = some (.ok n) ∧ system.normalize none t = some (.ok n)) ∧
    ∀ bound n, system.normalize bound t = some (.ok n) → system.Irreducible n := by
  refine ⟨fun _ _ => normalize_some_eq_ok_iff, ?failing, fun _ => normalize_none_eq_ok_iff, ?unbounded, ?larger,
    ?irreducible⟩
  case failing =>
    intro bound failure
    simp only [← normalForm?_eq_some_iff]
    cases outcome : system.normalForm? bound t <;> simp [normalize, outcome, eq_comm]
  case unbounded =>
    intro failure failing
    obtain ⟨_, _, same⟩ := Option.map_eq_some_iff.mp failing
    cases same
  case larger =>
    intro bound larger n more normal
    obtain ⟨k, within, reached⟩ := normalize_some_eq_ok_iff.mp normal
    exact ⟨normalize_some_eq_ok_iff.mpr ⟨k, within.trans more, reached⟩, normalize_none_eq_ok_iff.mpr ⟨k, reached⟩⟩
  case irreducible =>
    intro bound n normal
    obtain ⟨_, _, irreducible⟩ := exists_steps_of_normalize normal
    exact irreducible

/-- Two steps are one too many for the bound one, and enough for any other. -/
theorem normalize_exact_tower :
    let a : Term := .const ⟨⟨0⟩, .default⟩
    let h : FunctionSymbol := ⟨⟨0⟩, 1, .free, .default, .default⟩
    let system := RewriteSystem.ofList [⟨.node h [.var ⟨⟨0⟩, .default⟩], .var ⟨⟨0⟩, .default⟩⟩]
    let t : Term := .node h [.node h [a]]
    system.normalize (some 1) t = some (.error (.boundExceeded 1)) ∧
      (¬ ∃ n, ∃ k ≤ 1, system.Steps k t n ∧ system.Irreducible n) ∧
      system.normalize (some 2) t = some (.ok a) ∧ (∃ k ≤ 2, system.Steps k t a ∧ system.Irreducible a) ∧
      system.normalize (some 7) t = some (.ok a) ∧ system.normalize none t = some (.ok a) ∧ system.Irreducible a := by
  intro a h system t
  obtain ⟨reached, failing, _, _, larger, irreducible⟩ := normalize_exact system t
  have early : system.normalize (some 1) t = some (.error (.boundExceeded 1)) := rfl
  have late : system.normalize (some 2) t = some (.ok a) := rfl
  obtain ⟨seven, unbounded⟩ := larger 2 7 a (by decide) late
  exact ⟨early, ((failing 1 _).mp early).2, late, (reached 2 a).mp late, seven, unbounded, irreducible _ a late⟩

end RewriteSystem

end Equational
