import Equational.Term.Position
import Mathlib.Data.List.Lex
import Mathlib.Data.List.Pairwise

/-! Positions, looking up and replacing agree: the enumerated paths are those that lead to a subterm, and
those below which something can be replaced, each once and outermost first, that is in lexicographic order.
A walk that keeps one path for all nodes, and takes back on the way up what it has put at its end on the way
down, lists the same. The subterms are what is found at the positions: the term, and the subterms of its
arguments. -/

namespace Equational.Term

variable {t : Term} {path : List Nat}

private theorem mem_positionsFrom {i : Nat} {args : List Term} :
    path ∈ positionsFrom i args ↔ ∃ j rest arg, path = (i + j) :: rest ∧ args[j]? = some arg ∧
    rest ∈ arg.positions := by
  induction args generalizing i with
  | nil => simp [positionsFrom]
  | cons arg args ih =>
    rw [positionsFrom, List.mem_append, List.mem_map, ih]
    constructor
    · rintro (⟨rest, inside, rfl⟩ | ⟨j, rest, arg', rfl, found, inside⟩)
      · exact ⟨0, rest, arg, rfl, rfl, inside⟩
      · exact ⟨j + 1, rest, arg', by rw [Nat.add_assoc, Nat.add_comm 1 j], found, inside⟩
    · rintro ⟨j, rest, arg', rfl, found, inside⟩
      cases j with
      | zero =>
        cases found
        exact .inl ⟨rest, inside, rfl⟩
      | succ j => exact .inr ⟨j, rest, arg', by rw [Nat.add_assoc, Nat.add_comm 1 j], found, inside⟩

theorem mem_positions : path ∈ t.positions ↔ ∃ s, t.subtermAt path = some s := by
  induction path generalizing t with
  | nil => cases t <;> simp [positions, subtermAt]
  | cons i path ih =>
    cases t with
    | var v | const c => simp [positions, subtermAt, arguments]
    | node f args =>
      simp only [positions, List.mem_cons, reduceCtorEq, false_or, mem_positionsFrom, Nat.zero_add, List.cons.injEq,
        subtermAt, arguments, Option.bind_eq_bind, Option.bind_eq_some_iff]
      constructor
      · rintro ⟨j, rest, arg, ⟨rfl, rfl⟩, found, inside⟩
        obtain ⟨s, reached⟩ := ih.mp inside
        exact ⟨s, arg, found, reached⟩
      · rintro ⟨s, arg, found, reached⟩
        exact ⟨i, path, arg, ⟨rfl, rfl⟩, found, ih.mpr ⟨s, reached⟩⟩

/-- Something can be put in place of what is found, and of nothing else. -/
theorem exists_replaceAt_iff {replacement : Term} :
    (∃ u, replaceAt replacement path t = some u) ↔ ∃ s, t.subtermAt path = some s := by
  induction path generalizing t with
  | nil => simp [replaceAt, subtermAt]
  | cons i path ih =>
    cases t with
    | var v | const c => simp [replaceAt, subtermAt, arguments]
    | node f args =>
      cases found : args[i]? with
      | none => simp [replaceAt, subtermAt, arguments, found]
      | some arg => simpa [replaceAt, subtermAt, arguments, found, Option.bind_eq_some_iff] using ih (t := arg)

/-- A relation that passes from one argument to the application built anew passes from what is replaced to the whole. -/
theorem related_of_replaceAt {E : Term → Term → Prop}
    (inside : ∀ {f : FunctionSymbol} {args : List Term} {i : Nat} {arg child : Term}, args[i]? = some arg →
      E arg child → E (.node f args) (.app f (args.set i child))) {s u replacement : Term}
    (found : t.subtermAt path = some s) (replaced : replaceAt replacement path t = some u)
    (related : E s replacement) : E t u := by
  induction path generalizing t u with
  | nil =>
    cases found
    cases replaced
    exact related
  | cons i path ih =>
    cases t with
    | var v | const c => cases replaced
    | node f args =>
      obtain ⟨arg, place, rest⟩ := Option.bind_eq_some_iff.mp replaced
      obtain ⟨child, below, rebuilt⟩ := Option.bind_eq_some_iff.mp rest
      cases rebuilt
      rw [subtermAt, arguments, place] at found
      exact inside place (ih found below)

private theorem pairwise_positionsFrom {args : List Term}
    (each : ∀ arg ∈ args, arg.positions.Pairwise (· < ·)) (i : Nat) :
    (positionsFrom i args).Pairwise (· < ·) := by
  induction args generalizing i with
  | nil => exact .nil
  | cons arg args ih =>
    obtain ⟨first, others⟩ := List.forall_mem_cons.mp each
    refine List.pairwise_append.mpr ⟨?_, ih others (i + 1), ?_⟩
    · exact List.pairwise_map.mpr (first.imp fun before => List.Lex.cons before)
    · intro path inside path' later
      obtain ⟨rest, _, rfl⟩ := List.mem_map.mp inside
      obtain ⟨j, rest', _, rfl, _⟩ := mem_positionsFrom.mp later
      exact List.Lex.rel (by omega)

theorem pairwise_positions (t : Term) : t.positions.Pairwise (· < ·) := by
  induction t with
  | var v | const c => exact List.pairwise_singleton ..
  | node f args ih =>
    refine List.pairwise_cons.mpr ⟨fun path inside => ?_, pairwise_positionsFrom ih 0⟩
    obtain ⟨j, rest, _, rfl, _⟩ := mem_positionsFrom.mp inside
    exact List.Lex.nil

private theorem length_positionsFrom {args : List Term}
    (each : ∀ arg ∈ args, arg.positions.length = arg.size) (i : Nat) :
    (positionsFrom i args).length = sizeList args := by
  induction args generalizing i with
  | nil => rfl
  | cons arg args ih =>
    obtain ⟨first, others⟩ := List.forall_mem_cons.mp each
    rw [positionsFrom, List.length_append, List.length_map, first, ih others, sizeList]

/-- There is one position for every symbol and variable that is written. -/
theorem length_positions (t : Term) : t.positions.length = t.size := by
  induction t with
  | var v | const c => rfl
  | node f args ih => rw [positions, List.length_cons, length_positionsFrom ih, size, Nat.add_comm]

section Walk

/-- Where a walk through a term stands that keeps one path for all nodes, and the paths that it has listed. -/
structure Walk where
  path : List Nat := []
  listed : List (List Nat) := []

namespace Walk

def list (walk : Walk) : Walk :=
  { walk with listed := walk.listed ++ [walk.path] }

def enter (i : Nat) (walk : Walk) : Walk :=
  { walk with path := walk.path ++ [i] }

def leave (walk : Walk) : Walk :=
  { walk with path := walk.path.dropLast }

mutual

/-- Lists the path to the node, and then goes down into its arguments. -/
def visit : Term → Walk → Walk
  | var _, walk => walk.list
  | const _, walk => walk.list
  | node _ args, walk => visitFrom 0 args walk.list

/-- Visits the arguments, numbered from `i`, each with its number at the end of the path. -/
def visitFrom (i : Nat) : List Term → Walk → Walk
  | [], walk => walk
  | arg :: args, walk => visitFrom (i + 1) args (visit arg (walk.enter i)).leave

end

private theorem visitFrom_eq {args : List Term}
    (each : ∀ arg ∈ args, ∀ walk : Walk, visit arg walk =
      { walk with listed := walk.listed ++ arg.positions.map (walk.path ++ ·) })
    (i : Nat) (walk : Walk) :
    visitFrom i args walk = { walk with listed := walk.listed ++ (positionsFrom i args).map (walk.path ++ ·) } := by
  induction args generalizing i walk with
  | nil => simp [visitFrom, positionsFrom]
  | cons arg args ih =>
    obtain ⟨first, others⟩ := List.forall_mem_cons.mp each
    rw [visitFrom, first, ih others]
    simp [enter, leave, positionsFrom, Function.comp_def]

/-- The walk comes back with the path that it started with, and has listed the positions below it. -/
theorem visit_eq (t : Term) (walk : Walk) :
    visit t walk = { walk with listed := walk.listed ++ t.positions.map (walk.path ++ ·) } := by
  induction t generalizing walk with
  | var v | const c => simp [visit, list, positions]
  | node f args ih =>
    rw [visit, visitFrom_eq ih]
    simp [list, positions]

end Walk

end Walk

section Subterms

variable {s : Term}

def subterms (t : Term) : List Term :=
  t.positions.filterMap fun path => t.subtermAt path

theorem mem_subterms : s ∈ t.subterms ↔ ∃ path, t.subtermAt path = some s := by
  rw [subterms, List.mem_filterMap]
  constructor
  · rintro ⟨path, _, found⟩
    exact ⟨path, found⟩
  · rintro ⟨path, found⟩
    exact ⟨path, mem_positions.mpr ⟨s, found⟩, found⟩

theorem self_mem_subterms (t : Term) : t ∈ t.subterms :=
  mem_subterms.mpr ⟨[], rfl⟩

theorem mem_subterms_iff : s ∈ t.subterms ↔ s = t ∨ ∃ arg ∈ t.arguments, s ∈ arg.subterms := by
  rw [mem_subterms]
  constructor
  · rintro ⟨_ | ⟨i, path⟩, found⟩
    · exact .inl (Option.some.inj found).symm
    · obtain ⟨arg, place, inside⟩ := Option.bind_eq_some_iff.mp found
      exact .inr ⟨arg, List.mem_of_getElem? place, mem_subterms.mpr ⟨path, inside⟩⟩
  · rintro (rfl | ⟨arg, member, inside⟩)
    · exact ⟨[], rfl⟩
    · obtain ⟨i, place⟩ := List.mem_iff_getElem?.mp member
      obtain ⟨path, found⟩ := mem_subterms.mp inside
      exact ⟨i :: path, Option.bind_eq_some_iff.mpr ⟨arg, place, found⟩⟩

theorem size_lt_of_mem_arguments {arg : Term} (member : arg ∈ t.arguments) : arg.size < t.size := by
  cases t with
  | var v | const c => cases member
  | node f args => exact size_lt_of_mem member

theorem size_le_of_mem_subterms (inside : s ∈ t.subterms) : s.size ≤ t.size := by
  induction t with
  | var v | const c =>
    obtain rfl | ⟨arg, member, _⟩ := mem_subterms_iff.mp inside
    · exact Nat.le_refl _
    · cases member
  | node f args ih =>
    obtain rfl | ⟨arg, member, below⟩ := mem_subterms_iff.mp inside
    · exact Nat.le_refl _
    · exact Nat.le_trans (ih arg member below) (Nat.le_of_lt (size_lt_of_mem member))

end Subterms

end Equational.Term
