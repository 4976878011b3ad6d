import Equational.Proofs.ExpAC.Rule
import Equational.Proofs.Term.Stable

/-! States without repetition. Each definition gives a variable a shallow term, and each eliminated
variable gives way to one that remains. What a rule puts in keeps a state neat when it consists of
such definitions itself, and so does the elimination of a variable. -/

namespace Equational

namespace ExpAC

variable {P : Term → Prop} {n n' : Nat} {state : State} {e : Equation} {known : FunctionSymbol → Prop}

structure IsNaming (P : Term → Prop) (e : Equation) : Prop where
  named : e.lhs.isVariable = true
  left : P e.lhs
  shallow : e.rhs.IsShallow
  right : P e.rhs

theorem IsNaming.exists_var (naming : IsNaming P e) : ∃ x, e.lhs = .var x := by
  cases name : e.lhs with
  | var x => exact ⟨x, rfl⟩
  | const c | node h args =>
    have variable' := naming.named
    rw [name] at variable'
    cases variable'

theorem IsNaming.leaves (stable : Term.Stable P) (naming : IsNaming P e) {h : FunctionSymbol} {args : List Term}
    (root : e.rhs = .node h args) : ∀ arg ∈ args, arg.isSimple = true ∧ P arg := by
  obtain ⟨_, _, shallow, right⟩ := naming
  rw [root] at shallow right
  exact fun arg member => ⟨shallow arg member, stable.argument right arg member⟩

private theorem isNaming_of_isSimple {v : Variable} {t : Term} (left : P (.var v)) (simple : t.isSimple = true)
    (right : P t) :
    IsNaming P ⟨.var v, t⟩ :=
  ⟨rfl, left, Term.isShallow_of_isSimple simple, right⟩

namespace State

section Orient

variable {a b : Term} {add : List Equation} {xs ys : List Term} {added : List (List Equation)}

/-- Only two different constants cannot be oriented. -/
theorem exists_orient (left : a.isSimple = true) (right : b.isSimple = true)
    (constants : ∀ c d, a = .const c → b = .const d → c = d) : ∃ add, orient a b = .ok add := by
  simp only [orient]
  split
  · exact ⟨_, rfl⟩
  next different =>
    cases a with
    | node h args => cases left
    | var v => exact ⟨_, rfl⟩
    | const c =>
      cases b with
      | node h args => cases right
      | var v => exact ⟨_, rfl⟩
      | const d => exact absurd BEq.rfl (constants c d rfl rfl ▸ different)

theorem exists_orientAll (left : ∀ x ∈ xs, x.isSimple = true) (right : ∀ y ∈ ys, y.isSimple = true)
    (constants : List.Forall₂ (fun x y => ∀ c d, x = .const c → y = .const d → c = d) xs ys) :
    ∃ added, (xs.zip ys).mapM (fun p => orient p.1 p.2) = .ok added := by
  induction constants with
  | nil => exact ⟨[], rfl⟩
  | cons same _ ih =>
    obtain ⟨first, firsts⟩ := List.forall_mem_cons.mp left
    obtain ⟨second, seconds⟩ := List.forall_mem_cons.mp right
    obtain ⟨add, oriented⟩ := exists_orient first second same
    obtain ⟨added, orientedAll⟩ := ih firsts seconds
    refine ⟨add :: added, ?_⟩
    rw [List.zip_cons_cons, List.mapM_cons, oriented, orientedAll]
    rfl

theorem isNaming_orient (left : a.isSimple = true ∧ P a) (right : b.isSimple = true ∧ P b)
    (oriented : orient a b = .ok add) :
    ∀ e ∈ add, IsNaming P e := by
  rcases orient_cases oriented with ⟨_, rfl⟩ | ⟨v, rfl, rfl⟩ | ⟨v, rfl, rfl⟩
  · exact List.forall_mem_nil _
  · exact List.forall_mem_singleton.mpr (isNaming_of_isSimple left.2 right.1 right.2)
  · exact List.forall_mem_singleton.mpr (isNaming_of_isSimple right.2 left.1 left.2)

theorem isNaming_orientAll (left : ∀ x ∈ xs, x.isSimple = true ∧ P x) (right : ∀ y ∈ ys, y.isSimple = true ∧ P y)
    (oriented : (xs.zip ys).mapM (fun p => orient p.1 p.2) = .ok added) : ∀ e ∈ added.flatten, IsNaming P e := by
  intro e member
  obtain ⟨add, listed, inside⟩ := List.mem_flatten.mp member
  obtain ⟨⟨x, y⟩, zipped, oriented'⟩ := exists_of_mapM_ok oriented add listed
  obtain ⟨first, second⟩ := List.of_mem_zip zipped
  exact isNaming_orient (left x first) (right y second) oriented' e inside

end Orient

/-- Definitions without repetition, and eliminations of variables in favour of variables that remain. -/
structure Neat (P : Term → Prop) (n : Nat) (state : State) : Prop where
  definitions : ∀ e ∈ state.definitions.equations, IsNaming P e
  proper : ∀ e ∈ state.definitions.equations, e.isTrivial = false
  apart : state.definitions.equations.Pairwise fun e d => (e == d) = false
  bound : ∀ p ∈ state.solved.bindings, P (.var p.1) ∧ P p.2
  solved : ∀ p ∈ state.solved.bindings, ∃ y, p.2 = .var y ∧ state.Usable n y

theorem Neat.mono (neat : state.Neat P n) (grown : n ≤ n') : state.Neat P n' :=
  { neat with
    solved p inside := by
      obtain ⟨y, image, usable⟩ := neat.solved p inside
      exact ⟨y, image, usable.mono grown⟩ }

private theorem pairwise_foldl_erase {remove : List Equation} {problem : Problem}
    (apart : problem.equations.Pairwise fun e d => (e == d) = false) :
    (remove.foldl Problem.erase problem).equations.Pairwise fun e d => (e == d) = false := by
  induction remove generalizing problem with
  | nil => exact apart
  | cons r remove ih => exact ih (apart.sublist List.erase_sublist)

/-- A revision by definitions is neat. -/
theorem Neat.revise {add : List Equation} (neat : state.Neat P n) (grown : n ≤ n') (remove : List Equation)
    (definitions : ∀ e ∈ add, IsNaming P e) : (state.revise remove add).Neat P n' where
  definitions e member := by
    rcases Problem.mem_insertAll member with kept | new
    · exact neat.definitions e (mem_of_mem_foldl_erase kept)
    · exact definitions e (List.mem_of_mem_filter new)
  proper e member := by
    rcases Problem.mem_insertAll member with kept | new
    · exact neat.proper e (mem_of_mem_foldl_erase kept)
    · simpa using (List.mem_filter.mp new).2
  apart := Problem.pairwise_insertAll (pairwise_foldl_erase neat.apart)
  bound := neat.bound
  solved := (neat.mono grown).solved

section Elimination

variable {binding : Substitution} {x y : Variable} (renames : Renames binding x y) (flattenable : Term.Flattenable P)
include renames

private theorem Renames.isSimple_image (v : Variable) : (binding.image v).isSimple = true := by
  rw [renames.image v]
  rfl

private theorem Renames.image_of_property (target : P (.var y)) {v : Variable} (holds : P (.var v)) :
    P (binding.image v) := by
  rw [renames.image v]
  split
  · exact target
  · exact holds

include flattenable

private theorem Renames.isNaming (naming : IsNaming P e) (target : P (.var y)) :
    IsNaming P (binding.applyEquation e) := by
  have renamed {t : Term} (shallow : t.IsShallow) (holds : P t) :
      (binding.apply t).IsShallow ∧ P (binding.apply t) := by
    rcases binding.apply_eq_or t with rebuilt | ⟨_, kept⟩
    · rw [rebuilt]
      exact flattenable.instantiate shallow (fun v _ => renames.isSimple_image v)
        (fun v named => renames.image_of_property target named) holds
    · rw [kept]
      exact ⟨shallow, holds⟩
  obtain ⟨x', left⟩ := naming.exists_var
  have name := renamed (t := e.lhs) (by rw [left]; exact Term.isShallow_of_isSimple rfl) naming.left
  obtain ⟨shallow, right⟩ := renamed naming.shallow naming.right
  refine ⟨?_, name.2, shallow, right⟩
  rw [Substitution.applyEquation, left, Substitution.apply_var, renames.image x']
  rfl

private theorem Neat.renamed (neat : state.Neat P n) (usableX : state.Usable n x) (usableY : state.Usable n y)
    (eliminated : P (.var x)) (target : P (.var y)) (e : Equation) :
    Neat P n ⟨.ofList (((state.definitions.equations.filter (· != e)).map binding.applyEquation).filter
      (!·.isTrivial)), state.solved.compose binding⟩ := by
  refine ⟨?_, ?_, Problem.pairwise_insertAll .nil, ?_, ?_⟩
  · intro d member
    have origin := Problem.mem_ofList member
    obtain ⟨d', inside, rfl⟩ := List.mem_map.mp (List.mem_of_mem_filter origin)
    exact renames.isNaming flattenable (neat.definitions d' (List.mem_of_mem_filter inside)) target
  · intro d member
    have origin := Problem.mem_ofList member
    simpa using (List.mem_filter.mp origin).2
  · rintro ⟨v, t⟩ member
    rcases Substitution.mem_bindings_compose.mp member with ⟨u, old, rfl, _⟩ | ⟨new, _⟩
    · obtain ⟨named, holds⟩ := neat.bound _ old
      obtain ⟨w, same, _⟩ := neat.solved _ old
      simp only at same holds
      rw [same] at holds ⊢
      rw [Substitution.apply_var]
      exact ⟨named, renames.image_of_property target holds⟩
    · obtain rfl := (renames.domain v (Substitution.mem_domain_iff.mpr ⟨t, new⟩)).1
      rw [← Substitution.image_of_mem new]
      exact ⟨eliminated, renames.image_of_property target eliminated⟩
  · have renamed {w : Variable} (usable : state.Usable n w) (definitions : Problem) :
        ∃ y', binding.apply (.var w) = .var y' ∧ State.Usable ⟨definitions, state.solved.compose binding⟩ n y' := by
      have uses : ∀ v ∈ (binding.apply (.var w)).vars, State.Usable ⟨definitions, state.solved.compose binding⟩ n v :=
        renames.uses usableY (by simpa [Term.vars] using usable)
      rw [Substitution.apply_var, renames.image w] at uses ⊢
      exact ⟨_, rfl, uses _ (by simp [Term.vars])⟩
    rintro ⟨v, t⟩ member
    rcases Substitution.mem_bindings_compose.mp member with ⟨u, old, rfl, _⟩ | ⟨new, _⟩
    · obtain ⟨w, rfl, usable⟩ := neat.solved _ old
      exact renamed usable _
    · have image := Substitution.image_of_mem new
      rw [← image, ← Substitution.apply_var, (renames.domain v (Substitution.mem_domain_iff.mpr ⟨t, new⟩)).1]
      exact renamed usableX _

end Elimination

/-- The next state is in order and without repetition, and it says what the state says. -/
structure Agrees (E : Term → Term → Prop) (known : FunctionSymbol → Prop) (P : Term → Prop) (n : Nat)
    (state next : State) :
    Prop where
  proper : next.Proper known n
  neat : next.Neat P n
  holds : ∀ m, next.HoldsIn E m ↔ state.HoldsIn E m

/-- An elimination changes nothing but the form of a state. -/
theorem agrees_eliminate {E : Term → Term → Prop} {next : State} (congruence : Term.Congruence E)
    (flattenable : Term.Flattenable P)
    (proper : state.Proper known n) (neat : state.Neat P n) (applied : state.eliminate = .ok (some next)) :
    Agrees E known P n state next := by
  rcases eliminate_cases state with ⟨none, _⟩ | ⟨e, listed, x, y, left, right, step⟩
  · rw [none] at applied
    cases applied
  · rw [step] at applied
    obtain ⟨binding, bound, result⟩ := exists_of_bind_eq_ok applied
    cases result
    obtain ⟨images, domain⟩ := Substitution.singleton_var bound
    have renames : Renames binding x y := ⟨images, domain⟩
    have usableX : state.Usable n x := (proper.definitions e listed).1.vars x (by simp [left, Term.vars])
    have usableY : state.Usable n y := (proper.definitions e listed).2.vars y (by simp [right, Term.vars])
    have naming := neat.definitions e listed
    exact ⟨renames.proper proper usableX usableY e,
      neat.renamed renames flattenable usableX usableY (left ▸ naming.left) (right ▸ naming.right) e,
      fun m => renames.holdsIn_iff congruence listed left right usableX.2⟩

/-- Only variables of different sorts keep an elimination from succeeding. -/
theorem exists_eliminate
    (sorts : ∀ e ∈ state.definitions.equations, ∀ x y, e.lhs = .var x → e.rhs = .var y → y.sort = x.sort) :
    ∃ result, state.eliminate = .ok result := by
  rcases eliminate_cases state with ⟨none, _⟩ | ⟨e, listed, x, y, left, right, step⟩
  · exact ⟨_, none⟩
  · obtain ⟨binding, bound, _⟩ := Substitution.exists_add (σ := .empty) (v := x) (t := .var y)
      (by simp [Substitution.empty, Substitution.domain]) (sorts e listed x y left right)
    rw [step]
    change ∃ result, (Substitution.add .empty x (.var y) >>= _) = .ok result
    rw [bound]
    exact ⟨_, rfl⟩

end State

end ExpAC

end Equational
