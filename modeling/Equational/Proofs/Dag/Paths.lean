import Equational.Dag

/-! Paths in the graph of a term. Nodes are only ever added behind the others, an application
behind its arguments. So numbers go down along the edges, and what is added along with a term can
be reached from the node of the term. -/

namespace Equational

def DagNode.children : DagNode → List Nat
  | .node _ children => children
  | _ => []

namespace Dag

variable {dag dag' dag'' : Dag} {i j k m n : Nat} {roots : List Nat}

theorem children_eq (dag : Dag) (i : Nat) :
    dag.children i = ((dag.nodes[i]?).map DagNode.children).getD [] := by
  simp only [children, node?]
  cases dag.nodes[i]? with
  | none => rfl
  | some node => cases node <;> rfl

theorem lt_size_of_child (child : j ∈ dag.children i) : i < dag.size := by
  refine Nat.lt_of_not_le fun outside => ?_
  rw [children_eq, List.getElem?_eq_none outside] at child
  cases child

/-- So many edges lead from `i` to a node. -/
inductive Path (dag : Dag) (i : Nat) : Nat → Nat → Prop where
  | refl : Path dag i 0 i
  | step {m j k : Nat} (path : Path dag i m j) (child : k ∈ dag.children j) : Path dag i (m + 1) k

private theorem Path.cons (child : j ∈ dag.children i) (path : dag.Path j m k) : dag.Path i (m + 1) k := by
  induction path with
  | refl => exact .step .refl child
  | step _ next ih => exact .step ih next

/-- The second graph has the nodes of the first, with their numbers, and then more of them. -/
def Grows (dag dag' : Dag) : Prop :=
  ∃ new, dag'.nodes = dag.nodes ++ new

namespace Grows

private theorem refl (dag : Dag) : dag.Grows dag :=
  ⟨[], (List.append_nil _).symm⟩

private theorem trans (first : dag.Grows dag') (second : dag'.Grows dag'') : dag.Grows dag'' := by
  obtain ⟨new, same⟩ := first
  obtain ⟨new', same'⟩ := second
  exact ⟨new ++ new', by rw [same', same, List.append_assoc]⟩

private theorem size_le (grows : dag.Grows dag') : dag.size ≤ dag'.size := by
  obtain ⟨new, same⟩ := grows
  simp [size, same]

private theorem children_eq (grows : dag.Grows dag') (old : i < dag.size) : dag'.children i = dag.children i := by
  obtain ⟨new, same⟩ := grows
  rw [Dag.children_eq, Dag.children_eq, same, List.getElem?_append_left old]

private theorem path (grows : dag.Grows dag') (path : dag.Path i m k) : dag'.Path i m k := by
  induction path with
  | refl => exact .refl
  | step _ child ih => exact .step ih (grows.children_eq (lt_size_of_child child) ▸ child)

end Grows

/-- Numbers go down along the edges, and only numbers of nodes are indexed. -/
structure IsOrdered (dag : Dag) : Prop where
  lt : ∀ i, ∀ j ∈ dag.children i, j < i
  indexed : ∀ p ∈ dag.index, p.2 < dag.size

/-- The second graph comes of the first by entering terms whose nodes are the roots. -/
structure Entered (dag dag' : Dag) (roots : List Nat) : Prop where
  ordered : dag'.IsOrdered
  grows : dag.Grows dag'
  inside : ∀ i ∈ roots, i < dag'.size
  reached : ∀ k, dag.size ≤ k → k < dag'.size → ∃ i ∈ roots, ∃ m, dag'.Path i m k

section Push

variable (dag) (node : DagNode) (t : Term)

@[simp] theorem push_fst : (dag.push node t).1 = dag.size := rfl

@[simp] theorem size_push : (dag.push node t).2.size = dag.size + 1 := by
  simp [push, size]

private theorem grows_push : dag.Grows (dag.push node t).2 :=
  ⟨[node], rfl⟩

private theorem children_push : (dag.push node t).2.children dag.size = node.children := by
  rw [children_eq, push, size, List.getElem?_concat_length]
  rfl

end Push

private theorem Entered.push {node : DagNode} {t : Term} (entered : Entered dag dag' node.children) :
    Entered dag (dag'.push node t).2 [(dag'.push node t).1] where
  ordered.lt i j child := by
    have within := lt_size_of_child child
    rw [size_push] at within
    rcases Nat.lt_succ_iff_lt_or_eq.mp within with old | rfl
    · rw [(dag'.grows_push node t).children_eq old] at child
      exact entered.ordered.lt i j child
    · rw [children_push] at child
      exact entered.inside j child
  ordered.indexed p member := by
    rw [size_push]
    rcases List.mem_cons.mp member with rfl | old
    · exact Nat.lt_succ_self _
    · exact Nat.lt_succ_of_lt (entered.ordered.indexed p old)
  grows := entered.grows.trans (dag'.grows_push node t)
  inside i member := by
    rw [List.mem_singleton.mp member, push_fst, size_push]
    exact Nat.lt_succ_self _
  reached k new within := by
    refine ⟨dag'.size, List.mem_singleton_self _, ?_⟩
    rw [size_push] at within
    rcases Nat.lt_succ_iff_lt_or_eq.mp within with old | rfl
    · obtain ⟨i, member, m, path⟩ := entered.reached k new old
      have child : i ∈ (dag'.push node t).2.children dag'.size := by rwa [children_push]
      exact ⟨m + 1, .cons child ((dag'.grows_push node t).path path)⟩
    · exact ⟨0, .refl⟩

private theorem Entered.of_nothing (ordered : dag.IsOrdered) (inside : ∀ i ∈ roots, i < dag.size) :
    Entered dag dag roots where
  ordered
  grows := .refl dag
  inside
  reached _ new old := absurd old (Nat.not_lt.mpr new)

private theorem Entered.cons (first : Entered dag dag' [i]) (rest : Entered dag' dag'' roots) :
    Entered dag dag'' (i :: roots) where
  ordered := rest.ordered
  grows := first.grows.trans rest.grows
  inside := by
    have earlier := first.inside i (List.mem_singleton_self i)
    exact List.forall_mem_cons.mpr ⟨Nat.lt_of_lt_of_le earlier rest.grows.size_le, rest.inside⟩
  reached k new within := by
    by_cases earlier : k < dag'.size
    · obtain ⟨j, member, m, path⟩ := first.reached k new earlier
      rw [List.mem_singleton.mp member] at path
      exact ⟨i, List.mem_cons_self, m, rest.grows.path path⟩
    · obtain ⟨j, member, m, path⟩ := rest.reached k (Nat.not_lt.mp earlier) within
      exact ⟨j, List.mem_cons_of_mem i member, m, path⟩

private theorem entered_of_lookup {t : Term} (ordered : dag.IsOrdered) (found : dag.lookup t = some i) :
    Entered dag dag [i] := by
  obtain ⟨p, member, rfl⟩ := Option.map_eq_some_iff.mp found
  refine .of_nothing ordered fun j same => ?_
  rw [List.mem_singleton.mp same]
  exact ordered.indexed p (List.mem_of_find?_eq_some member)

mutual

private theorem entered_intern (t : Term) {dag : Dag} (ordered : dag.IsOrdered) :
    Entered dag (intern t dag).2 [(intern t dag).1] :=
  match t with
  | .var v => by
    simp only [intern]
    split
    next i found => exact entered_of_lookup ordered found
    next => exact .push (.of_nothing ordered (List.forall_mem_nil _))
  | .const c => by
    simp only [intern]
    split
    next i found => exact entered_of_lookup ordered found
    next => exact .push (.of_nothing ordered (List.forall_mem_nil _))
  | .node f args => by
    have arguments := entered_internList args ordered
    simp only [intern]
    split
    next i found => exact entered_of_lookup ordered found
    next => exact arguments.push
termination_by structural t

theorem entered_internList (ts : List Term) {dag : Dag} (ordered : dag.IsOrdered) :
    Entered dag (internList ts dag).2 (internList ts dag).1 :=
  match ts with
  | [] => .of_nothing ordered (List.forall_mem_nil _)
  | t :: ts =>
    have first := entered_intern t ordered
    first.cons (entered_internList ts first.ordered)
termination_by structural ts

end

private theorem isOrdered_empty : IsOrdered {} where
  lt i j child := by simp [children_eq] at child
  indexed := List.forall_mem_nil _

section OfTerm

variable (t : Term)

private theorem entered_ofTerm : Entered {} (ofTerm t) [(ofTerm t).root] := by
  have entered := entered_intern t isOrdered_empty
  have same : (intern t {}).2.Grows (ofTerm t) := ⟨[], (List.append_nil _).symm⟩
  refine ⟨⟨entered.ordered.lt, entered.ordered.indexed⟩, entered.grows, entered.inside, ?_⟩
  intro k new within
  obtain ⟨i, member, m, path⟩ := entered.reached k new within
  exact ⟨i, member, m, same.path path⟩

/-- Children come before their node. -/
theorem isOrdered_ofTerm : (ofTerm t).IsOrdered :=
  (entered_ofTerm t).ordered

theorem root_lt_size : (ofTerm t).root < (ofTerm t).size :=
  (entered_ofTerm t).inside _ (List.mem_singleton_self _)

/-- Every node can be reached from the root. -/
theorem exists_path_ofTerm {k : Nat} (node : k < (ofTerm t).size) :
    ∃ m, (ofTerm t).Path (ofTerm t).root m k := by
  obtain ⟨i, member, m, path⟩ := (entered_ofTerm t).reached k (Nat.zero_le k) node
  rw [List.mem_singleton.mp member] at path
  exact ⟨m, path⟩

end OfTerm

theorem Path.le (ordered : dag.IsOrdered) (path : dag.Path i m k) : k ≤ i := by
  induction path with
  | refl => exact Nat.le_refl _
  | step _ child ih => exact Nat.le_trans (Nat.le_of_lt (ordered.lt _ _ child)) ih

end Dag

end Equational
