import Equational.Proofs.Dag.Paths
import Equational.Proofs.Repetition
import Mathlib.Algebra.GroupWithZero.Nat

/-! Depth-first visits and the recursive walk. The stack and the nodes seen determine what is
visited; fuel only cuts it short. When the walk below a node begins, every node seen with a smaller
number has its children seen too: only nodes above the walk wait for theirs, and numbers go down
along the edges. So the visits below the node are the walk of its tree, less what was seen. -/

namespace List

variable {α : Type} [BEq α] [LawfulBEq α] {a : α} {seen xs ys : List α}

/-- The first occurrences in the list of what was not seen before. -/
def unseen (seen xs : List α) : List α :=
  (xs.removeAll seen).eraseDups

private theorem mem_unseen : a ∈ unseen seen xs ↔ a ∈ xs ∧ a ∉ seen := by
  simp [unseen, removeAll]

private theorem unseen_append : unseen seen (xs ++ ys) = unseen seen xs ++ unseen (xs ++ seen) ys := by
  have later : (ys.removeAll seen).removeAll (xs.removeAll seen) = ys.removeAll (xs ++ seen) := by
    simp only [removeAll, filter_filter]
    refine filter_congr fun a _ => ?_
    rw [Bool.eq_iff_iff]
    simp
    grind
  simp only [unseen]
  rw [← later, ← eraseDups_append]
  simp [removeAll]

private theorem unseen_cons (new : a ∉ seen) : unseen seen (a :: xs) = a :: unseen (a :: seen) xs := by
  have first : unseen seen [a] = [a] := by
    simp [unseen, removeAll, new]
    rfl
  rw [← singleton_append, unseen_append, first]
  rfl

private theorem unseen_eq_nil (old : xs ⊆ seen) : unseen seen xs = [] :=
  eq_nil_iff_forall_not_mem.mpr fun _ member => (mem_unseen.mp member).2 (old (mem_unseen.mp member).1)

private theorem unseen_nil : unseen [] xs = xs.eraseDups := by
  rw [unseen, removeAll, filter_eq_self.mpr fun a _ => by simp]

end List

namespace Equational.Dag

variable {dag : Dag} {i j k n : Nat} {seen seen' stack visited : List Nat}

section Preorder

/-- The recursive walk of the unshared tree below the node, each node before the walks below its
children. -/
def preorder (dag : Dag) (i : Nat) : List Nat :=
  i :: (dag.children i).flatMap fun j => if j < i then dag.preorder j else []
termination_by i

variable (ordered : dag.IsOrdered)

include ordered

theorem preorder_eq (i : Nat) : dag.preorder i = i :: (dag.children i).flatMap dag.preorder := by
  rw [preorder, List.flatMap, List.map_congr_left fun j child => if_pos (ordered.lt i j child)]
  rfl

private theorem self_mem_preorder (i : Nat) : i ∈ dag.preorder i := by
  rw [preorder_eq ordered]
  exact List.mem_cons_self

private theorem le_of_mem_preorder (member : k ∈ dag.preorder i) : k ≤ i := by
  induction i using Nat.strongRecOn with
  | ind i ih =>
    rw [preorder_eq ordered, List.mem_cons, List.mem_flatMap] at member
    rcases member with rfl | ⟨j, child, below⟩
    · exact Nat.le_refl _
    · exact Nat.le_of_lt (Nat.lt_of_le_of_lt (ih j (ordered.lt i j child) below) (ordered.lt i j child))

private theorem child_mem_preorder (member : k ∈ dag.preorder i) (child : j ∈ dag.children k) :
    j ∈ dag.preorder i := by
  induction i using Nat.strongRecOn with
  | ind i ih =>
    rw [preorder_eq ordered, List.mem_cons, List.mem_flatMap] at member ⊢
    rcases member with rfl | ⟨l, next, below⟩
    · exact .inr ⟨j, child, self_mem_preorder ordered j⟩
    · exact .inr ⟨l, next, ih l (ordered.lt i l next) below⟩

private theorem mem_preorder_of_path {m : Nat} (path : dag.Path i m k) : k ∈ dag.preorder i := by
  induction path with
  | refl => exact self_mem_preorder ordered i
  | step _ child ih => exact child_mem_preorder ordered ih child

private theorem preorder_subset (member : i ∈ seen)
    (closed : ∀ k ∈ seen, k ≤ i → ∀ j ∈ dag.children k, j ∈ seen) : dag.preorder i ⊆ seen := by
  induction i using Nat.strongRecOn with
  | ind i ih =>
    rw [preorder_eq ordered, List.cons_subset]
    refine ⟨member, fun k inside => ?_⟩
    obtain ⟨j, child, below⟩ := List.mem_flatMap.mp inside
    have lower := Nat.le_of_lt (ordered.lt i j child)
    exact ih j (ordered.lt i j child) (closed i member (Nat.le_refl i) j child)
      (fun l old le => closed l old (Nat.le_trans le lower)) below

end Preorder

section Visits

/-- From the stack, with the nodes seen so far, these nodes are visited. -/
inductive Visits (dag : Dag) : (seen stack visited : List Nat) → Prop where
  | done {seen : List Nat} : Visits dag seen [] []
  | skip {seen stack visited : List Nat} {i : Nat} (old : i ∈ seen)
    (rest : Visits dag seen stack visited) : Visits dag seen (i :: stack) visited
  | visit {seen stack visited : List Nat} {i : Nat} (new : i ∉ seen)
    (rest : Visits dag (i :: seen) (dag.children i ++ stack) visited) :
    Visits dag seen (i :: stack) (i :: visited)

private theorem Visits.congr (same : ∀ k, k ∈ seen ↔ k ∈ seen') (visits : dag.Visits seen stack visited) :
    dag.Visits seen' stack visited := by
  induction visits generalizing seen' with
  | done => exact .done
  | skip old _ ih => exact .skip ((same _).mp old) (ih same)
  | visit new _ ih =>
    refine .visit (fun old => new ((same _).mpr old)) (ih fun k => ?_)
    rw [List.mem_cons, List.mem_cons, same k]

private theorem depthFirst_eq {visit : Nat → List α} {fuel : Nat} (visits : dag.Visits seen stack visited)
    (enough : stack.length + (visited.map fun i => (dag.children i).length).sum ≤ fuel) :
    dag.depthFirst visit fuel seen stack = visited.flatMap visit := by
  induction visits generalizing fuel with
  | done => cases fuel <;> rfl
  | skip old _ ih =>
    rw [List.length_cons] at enough
    obtain _ | fuel := fuel
    · omega
    · rw [depthFirst, if_pos (by simpa using old)]
      exact ih (by omega)
  | visit new _ ih =>
    simp only [List.length_cons, List.length_append, List.map_cons, List.sum_cons] at enough ih
    obtain _ | fuel := fuel
    · omega
    · rw [depthFirst, if_neg (by simpa using new), List.flatMap_cons, ih (by omega)]

/-- The nodes seen with a smaller number have their children seen. -/
def Settled (dag : Dag) (seen : List Nat) (n : Nat) : Prop :=
  ∀ k ∈ seen, k < n → ∀ j ∈ dag.children k, j ∈ seen

variable (ordered : dag.IsOrdered)

include ordered

private theorem Settled.preorder_append (settled : dag.Settled seen n) (i : Nat) :
    dag.Settled (dag.preorder i ++ seen) n := by
  intro k member low j child
  rw [List.mem_append] at member ⊢
  exact member.imp (fun walked => child_mem_preorder ordered walked child)
    fun old => settled k old low j child

private theorem visits_children {js : List Nat} (settled : dag.Settled seen n) (low : ∀ j ∈ js, j < n)
    (walk : ∀ j < n, ∀ seen stack visited, dag.Settled seen (j + 1) →
      dag.Visits (dag.preorder j ++ seen) stack visited →
      dag.Visits seen (j :: stack) (List.unseen seen (dag.preorder j) ++ visited))
    (rest : dag.Visits (js.flatMap dag.preorder ++ seen) stack visited) :
    dag.Visits seen (js ++ stack) (List.unseen seen (js.flatMap dag.preorder) ++ visited) := by
  induction js generalizing seen with
  | nil => exact rest
  | cons j js ih =>
    rw [List.forall_mem_cons] at low
    have below : dag.Settled seen (j + 1) := fun k old le => settled k old (by omega)
    rw [List.flatMap_cons, List.unseen_append, List.append_assoc]
    refine walk j low.1 seen (js ++ stack) _ below (ih (settled.preorder_append ordered j) low.2 ?_)
    refine rest.congr fun k => ?_
    simp only [List.flatMap_cons, List.mem_append]
    grind

/-- The visits from a node on the stack start with the walk below it, less what was seen. -/
theorem visits_preorder (settled : dag.Settled seen (i + 1))
    (rest : dag.Visits (dag.preorder i ++ seen) stack visited) :
    dag.Visits seen (i :: stack) (List.unseen seen (dag.preorder i) ++ visited) := by
  induction i using Nat.strongRecOn generalizing seen stack visited with
  | ind i ih =>
    by_cases old : i ∈ seen
    · have walked := preorder_subset ordered old fun k member le => settled k member (Nat.lt_succ_of_le le)
      rw [List.unseen_eq_nil walked]
      refine .skip old (rest.congr fun k => ?_)
      rw [List.mem_append, or_iff_right_of_imp (walked ·)]
    · -- The children of `i` are still to come, but only walks below `i` begin before they are seen.
      have above : dag.Settled (i :: seen) i := by
        intro k member low j child
        have earlier := (List.mem_cons.mp member).resolve_left (Nat.ne_of_lt low)
        exact List.mem_cons_of_mem i (settled k earlier (Nat.lt_succ_of_lt low) j child)
      rw [preorder_eq ordered, List.unseen_cons old]
      refine .visit old (visits_children ordered above (ordered.lt i) ?_ ?_)
      · exact fun j low seen stack visited => ih j low
      · refine rest.congr fun k => ?_
        rw [preorder_eq ordered]
        simp only [List.cons_append, List.mem_cons, List.mem_append]
        grind

end Visits

private theorem sum_children (dag : Dag) :
    ((List.range dag.size).map fun i => (dag.children i).length).sum = dag.edgeCount := by
  have listed : (List.range dag.size).map (fun i => (dag.children i).length) =
      dag.nodes.map fun node => node.children.length := by
    refine List.ext_getElem (by simp [size]) fun i _ inside => ?_
    rw [List.length_map] at inside
    simp [children_eq, inside]
  rw [listed, edgeCount, List.length_flatMap]
  rfl

section OfTerm

variable (t : Term)

private theorem eraseDups_preorder_perm :
    ((ofTerm t).preorder (ofTerm t).root).eraseDups.Perm (List.range (ofTerm t).size) := by
  rw [List.perm_ext_iff_of_nodup (List.nodup_eraseDups _) List.nodup_range]
  intro k
  rw [List.mem_eraseDups, List.mem_range]
  constructor
  · intro walked
    exact Nat.lt_of_le_of_lt (le_of_mem_preorder (isOrdered_ofTerm t) walked) (root_lt_size t)
  · intro node
    obtain ⟨m, path⟩ := exists_path_ofTerm t node
    exact mem_preorder_of_path (isOrdered_ofTerm t) path

/-- The bound on the steps is never met: every edge puts its end on the stack once. -/
theorem depthFirst_root (visit : Nat → List α) :
    (ofTerm t).depthFirst visit ((ofTerm t).edgeCount + 1) [] [(ofTerm t).root] =
      ((ofTerm t).preorder (ofTerm t).root).eraseDups.flatMap visit := by
  have settled : (ofTerm t).Settled [] ((ofTerm t).root + 1) := fun _ old => nomatch old
  have visits := visits_preorder (isOrdered_ofTerm t) settled .done
  rw [List.append_nil, List.unseen_nil] at visits
  refine depthFirst_eq visits (Nat.le_of_eq ?_)
  rw [((eraseDups_preorder_perm t).map _).sum_nat, sum_children, List.length_singleton, Nat.add_comm]

/-- Depth-first order is the order of first occurrence in the walk. -/
theorem dfs_ofTerm : (ofTerm t).dfs = ((ofTerm t).preorder (ofTerm t).root).eraseDups := by
  rw [dfs, depthFirst_root, List.flatMap_singleton']

theorem edges_ofTerm : (ofTerm t).edges = (ofTerm t).dfs.flatMap (ofTerm t).outgoing := by
  rw [edges, depthFirst_root, dfs_ofTerm]

theorem dfs_perm : (ofTerm t).dfs.Perm (List.range (ofTerm t).size) := by
  rw [dfs_ofTerm]
  exact eraseDups_preorder_perm t

end OfTerm

end Equational.Dag
