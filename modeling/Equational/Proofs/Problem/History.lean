import Equational.Proofs.Problem
import Equational.Proofs.Term.Hash
import Mathlib.Data.List.Induction

/-! Problems as their history makes them. An equation is held if an equal one has been inserted and none
has been removed since, and the held equations are those inserted first, in the order of these
insertions. -/

namespace Equational

namespace Equation

noncomputable def shape (e : Equation) : Equation :=
  ⟨e.lhs.shape, e.rhs.shape⟩

private theorem beq_iff_shape {e d : Equation} : (e == d) = true ↔ e.shape = d.shape := by
  rw [beq_iff, Term.beq_iff_shape, Term.beq_iff_shape, shape, shape, mk.injEq]

private theorem written_congr {e d : Equation} (digest : List Nat → UInt64) (same : (e == d) = true) :
    e.written digest = d.written digest := by
  obtain ⟨left, right⟩ := beq_iff.mp same
  rw [written, written, ← Term.written_shape digest e.lhs, ← Term.written_shape digest e.rhs,
    Term.beq_iff_shape.mp left, Term.beq_iff_shape.mp right, Term.written_shape, Term.written_shape]

end Equation

namespace Problem

/-- What is done to a problem: an equation is inserted, whole or side by side, or removed. -/
inductive Operation where
  | insert (e : Equation)
  | push (lhs rhs : Term)
  | remove (e : Equation)

namespace Operation

def inserted? : Operation → Option Equation
  | insert e => some e
  | push lhs rhs => some ⟨lhs, rhs⟩
  | remove _ => none

def removes (e : Equation) : Operation → Bool
  | remove d => d == e
  | _ => false

end Operation

def perform (problem : Problem) : Operation → Bool × Problem
  | .insert e => problem.add e
  | .push lhs rhs => problem.push lhs rhs
  | .remove e => problem.remove e

def after (operations : List Operation) : Problem :=
  operations.foldl (fun problem operation => (problem.perform operation).2) {}

def insertedAt (operations : List Operation) (i : Nat) : Option Equation :=
  operations[i]?.bind Operation.inserted?

/-- An equal equation is inserted, and none is removed since. -/
def Stated (e : Equation) (operations : List Operation) : Prop :=
  ∃ i d, insertedAt operations i = some d ∧ (d == e) = true ∧ ∀ later ∈ operations.drop (i + 1),
    later.removes e = false

/-- The operation inserts an equation that is not stated yet, and that is not removed since. -/
def Founds (operations : List Operation) (i : Nat) : Prop :=
  ∃ d, insertedAt operations i = some d ∧ ¬ Stated d (operations.take i) ∧ ∀ later ∈ operations.drop (i + 1),
    later.removes d = false

variable {problem : Problem} {operations : List Operation} {operation : Operation} {e d : Equation} {i : Nat}

private theorem contains_iff : problem.contains e = true ↔ ∃ d ∈ problem.equations, (d == e) = true := by
  rw [contains, List.contains_iff_exists_mem_beq]
  exact ⟨fun ⟨d, member, same⟩ => ⟨d, member, BEq.symm same⟩, fun ⟨d, member, same⟩ => ⟨d, member, BEq.symm same⟩⟩

private theorem contains_congr (same : (e == d) = true) : problem.contains e = problem.contains d := by
  rw [Bool.eq_iff_iff, contains_iff, contains_iff]
  exact ⟨fun ⟨c, member, equal⟩ => ⟨c, member, BEq.trans equal same⟩,
    fun ⟨c, member, equal⟩ => ⟨c, member, BEq.trans equal (BEq.symm same)⟩⟩

private theorem lt_length_of_insertedAt (inserted : insertedAt operations i = some d) : i < operations.length := by
  obtain ⟨operation, here, -⟩ := Option.bind_eq_some_iff.mp inserted
  exact (List.getElem?_eq_some_iff.mp here).1

private theorem insertedAt_append (inside : i < operations.length) :
    insertedAt (operations ++ [operation]) i = insertedAt operations i := by
  rw [insertedAt, List.getElem?_append_left inside, insertedAt]

private theorem insertedAt_length : insertedAt (operations ++ [operation]) operations.length =
    operation.inserted? := by
  simp [insertedAt]

private theorem drop_append (inside : i < operations.length) :
    (operations ++ [operation]).drop (i + 1) = operations.drop (i + 1) ++ [operation] :=
  List.drop_append_of_le_length inside

/-- The last operation adds what it inserts to what is stated, and takes away what it removes. -/
theorem stated_append_iff : Stated e (operations ++ [operation]) ↔
    (Stated e operations ∧ operation.removes e = false) ∨ ∃ d, operation.inserted? = some d ∧ (d == e) = true := by
  constructor
  · rintro ⟨i, d, inserted, same, kept⟩
    have bound := lt_length_of_insertedAt inserted
    rw [List.length_append, List.length_singleton] at bound
    rcases Nat.lt_or_eq_of_le (Nat.le_of_lt_succ bound) with inside | rfl
    · rw [insertedAt_append inside] at inserted
      rw [drop_append inside, List.forall_mem_append, List.forall_mem_singleton] at kept
      exact .inl ⟨⟨i, d, inserted, same, kept.1⟩, kept.2⟩
    · rw [insertedAt_length] at inserted
      exact .inr ⟨d, inserted, same⟩
  · rintro (⟨⟨i, d, inserted, same, kept⟩, stays⟩ | ⟨d, inserted, same⟩)
    · have inside := lt_length_of_insertedAt inserted
      refine ⟨i, d, (insertedAt_append inside).trans inserted, same, ?_⟩
      rw [drop_append inside, List.forall_mem_append, List.forall_mem_singleton]
      exact ⟨kept, stays⟩
    · exact ⟨operations.length, d, insertedAt_length.trans inserted, same, by simp⟩

private theorem Founds.lt_length (founds : Founds operations i) : i < operations.length := by
  obtain ⟨d, inserted, -⟩ := founds
  exact lt_length_of_insertedAt inserted

/-- What the last operation does not remove stays founded where it was. -/
theorem founds_append_iff (inside : i < operations.length) : Founds (operations ++ [operation]) i ↔
    Founds operations i ∧ (insertedAt operations i).all fun d => !operation.removes d := by
  simp only [Founds, insertedAt_append inside, drop_append inside,
    List.take_append_of_le_length (Nat.le_of_lt inside), List.forall_mem_append, List.forall_mem_singleton]
  constructor
  · rintro ⟨d, inserted, new, kept, stays⟩
    exact ⟨⟨d, inserted, new, kept⟩, by simp [inserted, stays]⟩
  · rintro ⟨⟨d, inserted, new, kept⟩, stays⟩
    exact ⟨d, inserted, new, kept, by simpa [inserted] using stays⟩

private theorem founds_append_iff_of_keeps (inside : i < operations.length)
    (keeps : ∀ e, operation.removes e = false) :
    Founds (operations ++ [operation]) i ↔ Founds operations i := by
  rw [founds_append_iff inside]
  exact and_iff_left (by simp [keeps])

private theorem founds_length_iff : Founds (operations ++ [operation]) operations.length ↔
    ∃ d, operation.inserted? = some d ∧ ¬ Stated d operations := by
  simp [Founds, insertedAt_length]

private theorem Founds.lt_or_eq (founds : Founds (operations ++ [operation]) i) :
    i < operations.length ∨ i = operations.length := by
  have bound := founds.lt_length
  rw [List.length_append, List.length_singleton] at bound
  exact Nat.lt_or_eq_of_le (Nat.le_of_lt_succ bound)

/-- The equations are those of the founding operations, in the order of the operations. -/
structure Lists (operations : List Operation) (times : List Nat) (equations : List Equation) : Prop where
  sorted : times.Pairwise (· < ·)
  mem_iff : ∀ i, i ∈ times ↔ Founds operations i
  inserted : times.map (insertedAt operations) = equations.map some

namespace Lists

variable {times : List Nat} {equations : List Equation} (lists : Lists operations times equations)
include lists

private theorem lt_length (member : i ∈ times) : i < operations.length :=
  ((lists.mem_iff i).mp member).lt_length

private theorem map_append : times.map (insertedAt (operations ++ [operation])) = equations.map some := by
  rw [← lists.inserted]
  exact List.map_congr_left fun i member => insertedAt_append (lists.lt_length member)

private theorem stated (inserted : operation.inserted? = some d) (keeps : ∀ e, operation.removes e = false)
    (stated : Stated d operations) :
    Lists (operations ++ [operation]) times equations where
  sorted := lists.sorted
  inserted := lists.map_append
  mem_iff i := by
    rw [lists.mem_iff]
    refine ⟨fun founds => (founds_append_iff_of_keeps founds.lt_length keeps).mpr founds, fun founds => ?_⟩
    rcases founds.lt_or_eq with earlier | rfl
    · exact (founds_append_iff_of_keeps earlier keeps).mp founds
    · obtain ⟨c, same, new⟩ := founds_length_iff.mp founds
      rw [inserted] at same
      exact absurd (Option.some.inj same ▸ stated) new

private theorem new (inserted : operation.inserted? = some d) (keeps : ∀ e, operation.removes e = false)
    (new : ¬ Stated d operations) :
    Lists (operations ++ [operation]) (times ++ [operations.length]) (equations ++ [d]) where
  sorted := by
    refine List.pairwise_append.mpr ⟨lists.sorted, List.pairwise_singleton .., fun i member j last => ?_⟩
    exact List.mem_singleton.mp last ▸ lists.lt_length member
  inserted := by simp [lists.map_append, insertedAt_length, inserted]
  mem_iff i := by
    rw [List.mem_append, List.mem_singleton, lists.mem_iff]
    constructor
    · rintro (founds | rfl)
      · exact (founds_append_iff_of_keeps founds.lt_length keeps).mpr founds
      · exact founds_length_iff.mpr ⟨d, inserted, new⟩
    · intro founds
      exact founds.lt_or_eq.imp_left fun earlier => (founds_append_iff_of_keeps earlier keeps).mp founds

private theorem removed (e : Equation) :
    Lists (operations ++ [.remove e]) (times.filter fun i => (insertedAt operations i).all fun d => !(e == d))
    (equations.filter fun d => !(e == d)) where
  sorted := lists.sorted.filter _
  inserted := by
    have filtered := congrArg (List.filter fun inserted : Option Equation => inserted.all fun d => !(e == d))
      lists.inserted
    rw [List.filter_map, List.filter_map] at filtered
    refine Eq.trans ?_ filtered
    exact List.map_congr_left fun i member => insertedAt_append (lists.lt_length (List.mem_filter.mp member).1)
  mem_iff i := by
    rw [List.mem_filter, lists.mem_iff]
    constructor
    · intro ⟨founds, stays⟩
      exact (founds_append_iff founds.lt_length).mpr ⟨founds, stays⟩
    · intro founds
      rcases founds.lt_or_eq with earlier | rfl
      · exact (founds_append_iff earlier).mp founds
      · obtain ⟨c, inserted, -⟩ := founds_length_iff.mp founds
        cases inserted

end Lists

private theorem equations_erase (apart : problem.equations.Pairwise fun e d => (e == d) = false) (e : Equation) :
    (problem.erase e).equations = problem.equations.filter fun d => !(e == d) := by
  simp only [erase]
  generalize problem.equations = l at apart
  induction l with
  | nil => rfl
  | cons d l ih =>
    obtain ⟨first, rest⟩ := List.pairwise_cons.mp apart
    rw [List.erase_cons]
    split
    next same =>
      have others : ∀ c ∈ l, (!(e == c)) = true := by
        intro c member
        have other := first c member
        rw [BEq.congr_left same] at other
        rw [other]
        rfl
      rw [List.filter_cons_of_neg (by simp [BEq.symm same]), List.filter_eq_self.mpr others]
    next other => rw [ih rest, List.filter_cons_of_pos (by rw [BEq.comm]; simpa using other)]

private theorem contains_erase_iff (apart : problem.equations.Pairwise fun e d => (e == d) = false) :
    (problem.erase e).contains d = true ↔ problem.contains d = true ∧ (e == d) = false := by
  rw [contains_iff, contains_iff, equations_erase apart]
  constructor
  · rintro ⟨c, member, same⟩
    obtain ⟨held, kept⟩ := List.mem_filter.mp member
    exact ⟨⟨c, held, same⟩, by rw [← BEq.congr_right same]; simpa using kept⟩
  · rintro ⟨⟨c, held, same⟩, kept⟩
    exact ⟨c, List.mem_filter.mpr ⟨held, by rw [BEq.congr_right same, kept]; rfl⟩, same⟩

private theorem contains_insert_iff : (problem.insert e).contains d = true ↔ problem.contains d = true ∨
    (e == d) = true := by
  rw [insert]
  split
  next stated =>
    refine ⟨.inl, fun either => either.elim id fun same => ?_⟩
    rwa [← contains_congr same]
  next => simp [contains_iff]

/-- The problem holds what the operations have left, in the order in which it was first inserted. -/
structure Reflects (operations : List Operation) (problem : Problem) : Prop where
  apart : problem.equations.Pairwise fun e d => (e == d) = false
  contains_iff : ∀ e, problem.contains e = true ↔ Stated e operations
  listed : ∃ times, Lists operations times problem.equations

namespace Reflects

private theorem empty : Reflects [] {} where
  apart := .nil
  contains_iff e := by simp [contains, Stated, insertedAt]
  listed := ⟨[], .nil, fun i => by simp [Founds, insertedAt], rfl⟩

private theorem insert (reflects : Reflects operations problem) (inserted : operation.inserted? = some d)
    (keeps : ∀ e, operation.removes e = false) : Reflects (operations ++ [operation]) (problem.insert d) where
  apart := pairwise_insert reflects.apart
  contains_iff e := by
    rw [contains_insert_iff, stated_append_iff, reflects.contains_iff, inserted]
    simp [keeps]
  listed := by
    obtain ⟨times, lists⟩ := reflects.listed
    have stated := reflects.contains_iff d
    rw [Problem.insert]
    split
    next held => exact ⟨times, lists.stated inserted keeps (stated.mp held)⟩
    next missing => exact ⟨_, lists.new inserted keeps fun founded => missing (stated.mpr founded)⟩

private theorem remove (reflects : Reflects operations problem) (e : Equation) :
    Reflects (operations ++ [.remove e]) (problem.erase e) where
  apart := by
    rw [equations_erase reflects.apart]
    exact reflects.apart.filter _
  contains_iff d := by
    rw [contains_erase_iff reflects.apart, stated_append_iff, reflects.contains_iff]
    simp [Operation.inserted?, Operation.removes]
  listed := by
    obtain ⟨times, lists⟩ := reflects.listed
    rw [equations_erase reflects.apart]
    exact ⟨_, lists.removed e⟩

private theorem perform (reflects : Reflects operations problem) (operation : Operation) :
    Reflects (operations ++ [operation]) (problem.perform operation).2 := by
  cases operation with
  | insert e => exact reflects.insert rfl fun _ => rfl
  | push lhs rhs => exact reflects.insert rfl fun _ => rfl
  | remove e => exact reflects.remove e

end Reflects

private theorem reflects_after (operations : List Operation) : Reflects operations (after operations) := by
  induction operations using List.reverseRec with
  | nil => exact .empty
  | append_singleton operations operation ih =>
    rw [after, List.foldl_append]
    exact ih.perform operation

private theorem contains_iff_shape : problem.contains e = true ↔ e.shape ∈ problem.equations.map Equation.shape := by
  simp only [contains_iff, Equation.beq_iff_shape, List.mem_map]

private theorem nodup_shapes (apart : problem.equations.Pairwise fun e d => (e == d) = false) :
    (problem.equations.map Equation.shape).Nodup := by
  refine List.pairwise_map.mpr (apart.imp fun {e d} other same => ?_)
  rw [Equation.beq_iff_shape.mpr same] at other
  cases other

/-- Problems without repetition are equal when they hold equal equations: as many equations, all held by
the other, leave no room for another one. -/
theorem beq_iff {other : Problem} (apart : problem.equations.Pairwise fun e d => (e == d) = false)
    (apart' : other.equations.Pairwise fun e d => (e == d) = false) :
    (problem == other) = true ↔ ∀ e, problem.contains e = other.contains e := by
  change (problem.size == other.size && problem.equations.all other.contains) = true ↔ _
  rw [Bool.and_eq_true, beq_iff_eq, List.all_eq_true]
  constructor
  · rintro ⟨size, held⟩ e
    have inside : problem.equations.map Equation.shape ⊆ other.equations.map Equation.shape := by
      intro shape member
      obtain ⟨d, stated, rfl⟩ := List.mem_map.mp member
      exact contains_iff_shape.mp (held d stated)
    have perm := ((nodup_shapes apart).subperm inside).perm_of_length_le (by simpa [Problem.size] using size.ge)
    rw [Bool.eq_iff_iff, contains_iff_shape, contains_iff_shape, perm.mem_iff]
  · intro same
    have perm : (problem.equations.map Equation.shape).Perm (other.equations.map Equation.shape) := by
      refine (List.perm_ext_iff_of_nodup (nodup_shapes apart) (nodup_shapes apart')).mpr fun shape =>
        ⟨fun member => ?_, fun member => ?_⟩
      · obtain ⟨d, -, rfl⟩ := List.mem_map.mp member
        rwa [← contains_iff_shape, ← same, contains_iff_shape]
      · obtain ⟨d, -, rfl⟩ := List.mem_map.mp member
        rwa [← contains_iff_shape, same, contains_iff_shape]
    refine ⟨by simpa [size] using perm.length_eq, fun d stated => ?_⟩
    rw [← same]
    exact contains_iff.mpr ⟨d, stated, BEq.rfl⟩

private theorem beq_self (problem : Problem) : (problem == problem) = true := by
  change (problem.size == problem.size && problem.equations.all problem.contains) = true
  rw [Bool.and_eq_true, beq_iff_eq, List.all_eq_true]
  exact ⟨rfl, fun d stated => contains_iff.mpr ⟨d, stated, BEq.rfl⟩⟩

private theorem beq_eq_false_of_size {other : Problem} (different : problem.size ≠ other.size) :
    (problem == other) = false := by
  change (problem.size == other.size && problem.equations.all other.contains) = false
  rw [beq_eq_false_iff_ne.mpr different, Bool.false_and]

private theorem changed_add (problem : Problem) (e : Equation) : (problem.add e).1 = !((problem.add e).2 == problem) ∧
    ((problem.add e).1 = false → (problem.add e).2 = problem) := by
  simp only [add, insert]
  cases problem.contains e with
  | true => exact ⟨by simp [beq_self], fun _ => rfl⟩
  | false =>
    have different : size ⟨problem.equations ++ [e]⟩ ≠ problem.size := by simp [size]
    exact ⟨by simp [beq_eq_false_of_size different], by simp⟩

private theorem changed_remove (problem : Problem) (e : Equation) :
    (problem.remove e).1 = !((problem.remove e).2 == problem) ∧
    ((problem.remove e).1 = false → (problem.remove e).2 = problem) := by
  simp only [remove]
  cases held : problem.contains e with
  | true =>
    obtain ⟨d, stated, same⟩ := contains_iff.mp held
    have fewer : (problem.equations.eraseP (· == e)).length = problem.equations.length - 1 :=
      List.length_eraseP_of_mem stated same
    have some := List.length_pos_of_mem stated
    have different : (problem.erase e).size ≠ problem.size := by
      simp only [size, erase, List.erase_eq_eraseP', fewer]
      omega
    exact ⟨by simp [beq_eq_false_of_size different], by simp⟩
  | false =>
    have kept : problem.erase e = problem := by
      rw [erase, List.erase_eq_eraseP', List.eraseP_of_forall_not]
      intro d stated same
      rw [contains_iff.mpr ⟨d, stated, same⟩] at held
      cases held
    exact ⟨by simp [kept, beq_self], fun _ => kept⟩

private theorem changed_perform (problem : Problem) (operation : Operation) :
    (problem.perform operation).1 = !((problem.perform operation).2 == problem) ∧
      ((problem.perform operation).1 = false → (problem.perform operation).2 = problem) := by
  cases operation with
  | insert e => exact problem.changed_add e
  | push lhs rhs => exact problem.changed_add ⟨lhs, rhs⟩
  | remove e => exact problem.changed_remove e

/-- After any operations, no two equations that are held are equal; an equation is held exactly if it is
stated; they are those of the founding operations, in the order of these; an operation says that it has
changed the problem exactly if it has; and two problems are equal exactly if they hold equal equations.
Equality of equations is an equivalence, and equal equations write the same to every hasher. -/
theorem history (operations : List Operation) :
    let problem := after operations
    problem.equations.Pairwise (fun e d => (e == d) = false) ∧
      (∀ e, problem.contains e = true ↔ Stated e operations) ∧
      (∃ times : List Nat, times.Pairwise (· < ·) ∧ (∀ i, i ∈ times ↔ Founds operations i) ∧
        times.map (insertedAt operations) = problem.equations.map some) ∧
      (∀ operation, let (changed, problem') := problem.perform operation
        changed = !(problem' == problem) ∧ (changed = false → problem' = problem)) ∧
      (∀ others, (problem == after others) = true ↔ ∀ e, problem.contains e = (after others).contains e) ∧
      EquivBEq Equation ∧ (∀ digest, ∀ e d : Equation, (e == d) = true → e.written digest = d.written digest) := by
  have reflects := reflects_after operations
  obtain ⟨times, lists⟩ := reflects.listed
  exact ⟨reflects.apart, reflects.contains_iff, ⟨times, lists.sorted, lists.mem_iff, lists.inserted⟩,
    changed_perform _, fun others => beq_iff reflects.apart (reflects_after others).apart, inferInstance,
    fun digest _ _ same => Equation.written_congr digest same⟩

/-- A second form of the first equation changes nothing, takes the first form away, and then comes last. -/
example :
    let f : FunctionSymbol := ⟨⟨0⟩, 2, .associativeCommutative, .default, .default⟩
    let x : Term := .var ⟨⟨0⟩, .default⟩
    let a : Term := .const ⟨⟨0⟩, .default⟩
    let e : Equation := ⟨.node f [.node f [x, a], a], a⟩
    let e' : Equation := ⟨.node f [a, .node f [a, x]], a⟩
    (after [.insert e, .push x a, .insert e']).equations = [e, ⟨x, a⟩] ∧
      (after [.insert e, .push x a, .remove e', .insert e']).equations = [⟨x, a⟩, e'] := by
  cbv

end Problem

end Equational
