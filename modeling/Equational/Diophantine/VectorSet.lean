/-! Sets of vectors of naturals. A set branches on the first component of its members, so a
membership test follows one path however many members there are. -/

namespace Equational

/-- Whether the empty vector is a member, and the members by their first component. -/
inductive VectorSet where
  | node (holdsNil : Bool) (branches : List (Nat × VectorSet))

namespace VectorSet

def empty : VectorSet := node false []

def contains : VectorSet → List Nat → Bool
  | node holdsNil _, [] => holdsNil
  | node _ branches, x :: v => (branches.lookup x).any (contains · v)

/-- Puts a set in the place of the branch for `x`. -/
def graft (x : Nat) (set : VectorSet) : List (Nat × VectorSet) → List (Nat × VectorSet)
  | [] => [(x, set)]
  | (y, other) :: branches => if y == x then (x, set) :: branches else (y, other) :: graft x set branches

def insert : VectorSet → List Nat → VectorSet
  | node _ branches, [] => node true branches
  | node holdsNil branches, x :: v =>
    node holdsNil (graft x (insert ((branches.lookup x).getD empty) v) branches)

theorem contains_empty (v : List Nat) : empty.contains v = false := by
  cases v <;> simp [empty, contains]

theorem lookup_graft (x y : Nat) (set : VectorSet) (branches : List (Nat × VectorSet)) :
    (graft x set branches).lookup y = if y = x then some set else branches.lookup y := by
  induction branches with
  | nil => by_cases same : y = x <;> simp [graft, List.lookup_cons, beq_eq_false_iff_ne.mpr, same]
  | cons branch branches ih =>
    obtain ⟨z, other⟩ := branch
    simp only [graft]
    split <;> simp only [List.lookup_cons, ih] <;> grind

theorem contains_insert (set : VectorSet) (v w : List Nat) :
    (set.insert v).contains w = (w == v || set.contains w) := by
  induction v generalizing set w with
  | nil => cases set; cases w <;> simp [insert, contains]
  | cons x v ih =>
    obtain ⟨holdsNil, branches⟩ := set
    cases w with
    | nil => simp [insert, contains]
    | cons y w =>
      by_cases same : y = x
      · subst same
        cases found : branches.lookup y <;> simp [insert, contains, lookup_graft, found, ih, contains_empty]
      · simp [insert, contains, lookup_graft, same]

end VectorSet

end Equational
