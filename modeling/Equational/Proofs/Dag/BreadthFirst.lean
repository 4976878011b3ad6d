import Equational.Proofs.Dag.Paths
import Equational.Proofs.Repetition
import Mathlib.Order.Lattice.Nat

/-! Breadth-first visits. The nodes visited and then the queue are the nodes met so far, by
distance from the root, and no entry of the queue is more than one edge further away than another.
A path to a node not met yet leaves the visited nodes through the queue, so a new child is one edge
further away than the front of the queue. -/

namespace Equational.Dag

variable {dag : Dag} {i j k m : Nat} {visited queue seen : List Nat}

noncomputable def distance (dag : Dag) (k : Nat) : Nat :=
  sInf {m | dag.Path dag.root m k}

theorem distance_le (path : dag.Path dag.root m k) : dag.distance k ≤ m :=
  Nat.sInf_le path

theorem path_distance (path : dag.Path dag.root m k) : dag.Path dag.root (dag.distance k) k :=
  show dag.distance k ∈ {m | dag.Path dag.root m k} from Nat.sInf_mem ⟨m, path⟩

/-- What holds whenever the front of the queue is visited. -/
structure Searched (dag : Dag) (visited queue seen : List Nat) : Prop where
  root : dag.root ∈ visited ++ queue
  nodup : (visited ++ queue).Nodup
  seen : ∀ k, k ∈ seen ↔ k ∈ visited ++ queue
  reached : ∀ k ∈ visited ++ queue, ∃ m, dag.Path dag.root m k
  closed : ∀ i ∈ visited, ∀ j ∈ dag.children i, j ∈ visited ++ queue
  sorted : (visited ++ queue).Pairwise (dag.distance · ≤ dag.distance ·)
  near : ∀ i ∈ queue, ∀ k ∈ queue, dag.distance k ≤ dag.distance i + 1

namespace Searched

private theorem start (dag : Dag) : dag.Searched [] [dag.root] [dag.root] where
  root := List.mem_singleton_self _
  nodup := List.nodup_singleton _
  seen _ := Iff.rfl
  reached k member := ⟨0, List.mem_singleton.mp member ▸ .refl⟩
  closed := List.forall_mem_nil _
  sorted := List.pairwise_singleton _ _
  near i first k second := by
    rw [List.mem_singleton.mp first, List.mem_singleton.mp second]
    exact Nat.le_succ _

private theorem exists_queued (searched : dag.Searched visited queue seen) (path : dag.Path dag.root m k)
    (unvisited : k ∉ visited) : ∃ i ∈ queue, dag.distance i ≤ m := by
  induction path with
  | refl =>
    have queued := (List.mem_append.mp searched.root).resolve_left unvisited
    exact ⟨dag.root, queued, distance_le .refl⟩
  | @step m j k path child ih =>
    by_cases before : j ∈ visited
    · have queued := (List.mem_append.mp (searched.closed j before k child)).resolve_left unvisited
      exact ⟨k, queued, distance_le (path.step child)⟩
    · obtain ⟨i, queued, le⟩ := ih before
      exact ⟨i, queued, Nat.le_succ_of_le le⟩

section Front

variable (searched : dag.Searched visited (i :: queue) seen)

include searched

private theorem front_le (queued : k ∈ i :: queue) : dag.distance i ≤ dag.distance k := by
  rcases List.mem_cons.mp queued with rfl | later
  · exact Nat.le_refl _
  · exact List.rel_of_pairwise_cons (List.pairwise_append.mp searched.sorted).2.1 later

private theorem distance_new (child : j ∈ dag.children i) (new : j ∉ visited ++ i :: queue) :
    dag.distance j = dag.distance i + 1 := by
  obtain ⟨m, path⟩ := searched.reached i (by simp)
  refine Nat.le_antisymm (distance_le (.step (path_distance path) child)) ?_
  -- A shortest path to the child passes the queue before its last edge, so it is not shorter.
  have shortest := path_distance (path.step child)
  generalize dag.distance j = d at shortest
  cases shortest with
  | refl => exact absurd searched.root new
  | @step d l _ before last =>
    have unvisited : l ∉ visited := fun old => new (searched.closed l old j last)
    obtain ⟨k, queued, le⟩ := searched.exists_queued before unvisited
    exact Nat.succ_le_succ (Nat.le_trans (searched.front_le queued) le)

private theorem near_new {new : List Nat} (further : ∀ j ∈ new, dag.distance j = dag.distance i + 1) :
    ∀ k ∈ queue ++ new, ∀ l ∈ queue ++ new, dag.distance l ≤ dag.distance k + 1 := by
  have above : ∀ k ∈ queue ++ new, dag.distance i ≤ dag.distance k := by
    intro k member
    rcases List.mem_append.mp member with queued | inside
    · exact searched.front_le (List.mem_cons_of_mem i queued)
    · exact Nat.le_trans (Nat.le_succ _) (Nat.le_of_eq (further k inside).symm)
  have below : ∀ l ∈ queue ++ new, dag.distance l ≤ dag.distance i + 1 := by
    intro l member
    rcases List.mem_append.mp member with queued | inside
    · exact searched.near i List.mem_cons_self l (List.mem_cons_of_mem i queued)
    · exact Nat.le_of_eq (further l inside)
  exact fun k first l second => Nat.le_trans (below l second) (Nat.succ_le_succ (above k first))

private theorem sorted_new {new : List Nat} (further : ∀ j ∈ new, dag.distance j = dag.distance i + 1) :
    (visited ++ i :: queue ++ new).Pairwise (dag.distance · ≤ dag.distance ·) := by
  have last := List.pairwise_append.mp searched.sorted
  have equal : new.Pairwise (dag.distance · ≤ dag.distance ·) :=
    List.pairwise_of_forall_mem_list fun j first k second => by rw [further j first, further k second]
  refine List.pairwise_append.mpr ⟨searched.sorted, equal, fun k member j inside => ?_⟩
  rw [further j inside]
  rcases List.mem_append.mp member with before | queued
  · exact Nat.le_succ_of_le (last.2.2 k before i List.mem_cons_self)
  · exact searched.near i List.mem_cons_self k queued

/-- Visiting the front of the queue. -/
theorem step {new : List Nat} (fresh : new.Nodup)
    (children : ∀ j, j ∈ new ↔ j ∈ dag.children i ∧ j ∉ seen) :
    dag.Searched (visited ++ [i]) (queue ++ new) (new ++ seen) := by
  have same : visited ++ [i] ++ (queue ++ new) = visited ++ i :: queue ++ new := by simp
  have unmet : ∀ j ∈ new, j ∉ visited ++ i :: queue := fun j inside met =>
    ((children j).mp inside).2 ((searched.seen j).mpr met)
  have further : ∀ j ∈ new, dag.distance j = dag.distance i + 1 := fun j inside =>
    searched.distance_new ((children j).mp inside).1 (unmet j inside)
  refine ⟨?root, ?nodup, ?seen, ?reached, ?closed, ?sorted, searched.near_new further⟩
  all_goals rw [same]
  case root => exact List.mem_append_left new searched.root
  case nodup =>
    refine List.nodup_append.mpr ⟨searched.nodup, fresh, ?_⟩
    rintro k met _ inside rfl
    exact unmet k inside met
  case seen =>
    intro k
    rw [List.mem_append, List.mem_append, searched.seen k, or_comm]
  case reached =>
    intro k member
    rcases List.mem_append.mp member with met | inside
    · exact searched.reached k met
    · obtain ⟨m, path⟩ := searched.reached i (by simp)
      exact ⟨m + 1, path.step ((children k).mp inside).1⟩
  case closed =>
    intro k member j child
    rcases List.mem_append.mp member with before | front
    · exact List.mem_append_left new (searched.closed k before j child)
    · rw [List.mem_singleton.mp front] at child
      by_cases old : j ∈ seen
      · exact List.mem_append_left new ((searched.seen j).mp old)
      · exact List.mem_append_right _ ((children j).mpr ⟨child, old⟩)
  case sorted => exact searched.sorted_new further

end Front

/-- As many turns as there are nodes left empty the queue. -/
theorem run {fuel : Nat} (inside : ∀ m k, dag.Path dag.root m k → k < dag.size)
    (searched : dag.Searched visited queue seen) (bound : visited.length + fuel = dag.size) :
    ∃ seen', dag.Searched (visited ++ dag.breadthFirst fuel seen queue) [] seen' := by
  induction fuel generalizing visited queue seen with
  | zero =>
    have nodes : visited ++ queue ⊆ List.range dag.size := by
      intro k member
      obtain ⟨m, path⟩ := searched.reached k member
      exact List.mem_range.mpr (inside m k path)
    have fits := (searched.nodup.subperm nodes).length_le
    have none : queue = [] := by
      rw [List.length_append, List.length_range] at fits
      exact List.eq_nil_of_length_eq_zero (by omega)
    subst none
    exact ⟨seen, by simpa [breadthFirst] using searched⟩
  | succ fuel ih =>
    cases queue with
    | nil => exact ⟨seen, by simpa [breadthFirst] using searched⟩
    | cons i queue =>
      have next := searched.step ((List.nodup_eraseDups (dag.children i)).filter (!seen.contains ·))
        fun j => by simp
      obtain ⟨seen', finished⟩ := ih next (by rw [List.length_append, List.length_singleton]; omega)
      exact ⟨seen', by simpa [breadthFirst] using finished⟩

end Searched

section OfTerm

variable (t : Term)

private theorem searched_bfs : ∃ seen, (ofTerm t).Searched (ofTerm t).bfs [] seen := by
  refine Searched.run (fun m k path => ?_) (.start _) (Nat.zero_add _)
  exact Nat.lt_of_le_of_lt (path.le (isOrdered_ofTerm t)) (root_lt_size t)

theorem bfs_perm : (ofTerm t).bfs.Perm (List.range (ofTerm t).size) := by
  obtain ⟨seen, searched⟩ := searched_bfs t
  obtain ⟨root, nodup, -, reached, closed, -, -⟩ := searched
  rw [List.append_nil] at root nodup reached closed
  rw [List.perm_ext_iff_of_nodup nodup List.nodup_range]
  intro k
  rw [List.mem_range]
  constructor
  · intro member
    obtain ⟨m, path⟩ := reached k member
    exact Nat.lt_of_le_of_lt (path.le (isOrdered_ofTerm t)) (root_lt_size t)
  · intro node
    obtain ⟨m, path⟩ := exists_path_ofTerm t node
    induction path with
    | refl => exact root
    | step path child ih => exact closed _ (ih (lt_size_of_child child)) _ child

/-- Breadth-first order is by distance from the root. -/
theorem bfs_sorted : (ofTerm t).bfs.Pairwise ((ofTerm t).distance · ≤ (ofTerm t).distance ·) := by
  obtain ⟨seen, searched⟩ := searched_bfs t
  simpa using searched.sorted

end OfTerm

end Equational.Dag
