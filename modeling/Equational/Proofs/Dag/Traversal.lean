import Equational.Proofs.Dag.BreadthFirst
import Equational.Proofs.Dag.DepthFirst

/-! The traversals of the graph of a term meet every node once, and every argument edge once. -/

namespace Equational.Dag

variable {dag : Dag} {i : Nat} {e : DagEdge}

private theorem mem_outgoing : e ∈ dag.outgoing i ↔ e.parent = i ∧ (dag.children i)[e.place]? = some e.child := by
  obtain ⟨parent, child, place⟩ := e
  simp only [outgoing, List.mem_map, List.mem_zipIdx_iff_getElem?, Prod.exists, DagEdge.mk.injEq]
  grind

private theorem nodup_outgoing (dag : Dag) (i : Nat) : (dag.outgoing i).Nodup := by
  have places : (dag.outgoing i).map DagEdge.place = List.range' 0 (dag.children i).length := by
    rw [outgoing, List.map_map, ← List.zipIdx_map_snd 0 (dag.children i)]
    rfl
  exact List.Nodup.of_map DagEdge.place (places ▸ List.nodup_range')

variable (t : Term)

private theorem mem_edges : e ∈ (ofTerm t).edges ↔
    e.parent < (ofTerm t).size ∧ ((ofTerm t).children e.parent)[e.place]? = some e.child := by
  rw [edges_ofTerm, List.mem_flatMap]
  constructor
  · rintro ⟨i, node, member⟩
    obtain ⟨rfl, listed⟩ := mem_outgoing.mp member
    exact ⟨List.mem_range.mp ((dfs_perm t).mem_iff.mp node), listed⟩
  · intro ⟨inside, listed⟩
    exact ⟨e.parent, (dfs_perm t).mem_iff.mpr (List.mem_range.mpr inside), mem_outgoing.mpr ⟨rfl, listed⟩⟩

private theorem nodup_edges : (ofTerm t).edges.Nodup := by
  rw [edges_ofTerm, List.nodup_flatMap]
  refine ⟨fun i _ => nodup_outgoing _ i, ?_⟩
  refine ((dfs_perm t).nodup_iff.mpr List.nodup_range).imp fun {i j} distinct e first second => ?_
  exact distinct ((mem_outgoing.mp first).1.symm.trans (mem_outgoing.mp second).1)

/-- Depth-first and breadth-first order list every node once. Depth-first order is the order of
first occurrence in the recursive walk, breadth-first order is by distance from the root, and the
edges are the places of the nodes, by parent in depth-first order. -/
theorem traversals_ofTerm (t : Term) :
    let dag := ofTerm t
    dag.dfs.Perm (List.range dag.size) ∧
      dag.bfs.Perm (List.range dag.size) ∧
      (∀ i, dag.preorder i = i :: (dag.children i).flatMap dag.preorder) ∧
      dag.dfs = (dag.preorder dag.root).eraseDups ∧
      (∀ k < dag.size, dag.Path dag.root (dag.distance k) k ∧
        ∀ m, dag.Path dag.root m k → dag.distance k ≤ m) ∧
      dag.bfs.Pairwise (dag.distance · ≤ dag.distance ·) ∧
      dag.edges.Nodup ∧
      (∀ e : DagEdge, e ∈ dag.edges ↔
        e.parent < dag.size ∧ (dag.children e.parent)[e.place]? = some e.child) ∧
      dag.edges = dag.dfs.flatMap dag.outgoing := by
  refine ⟨dfs_perm t, bfs_perm t, preorder_eq (isOrdered_ofTerm t), dfs_ofTerm t, ?_, bfs_sorted t,
    nodup_edges t, fun e => mem_edges t, edges_ofTerm t⟩
  intro k node
  obtain ⟨m, path⟩ := exists_path_ofTerm t node
  exact ⟨path_distance path, fun m path => distance_le path⟩

/-- The argument of `g` is visited before `b` in depth-first order and after it in breadth-first order. -/
example :
    let f : FunctionSymbol := ⟨⟨0⟩, 2, .free, .default, .default⟩
    let g : FunctionSymbol := ⟨⟨1⟩, 1, .free, .default, .default⟩
    let a : Term := .const ⟨⟨0⟩, .default⟩
    let b : Term := .const ⟨⟨1⟩, .default⟩
    let dag := ofTerm (.node f [.node g [a], b])
    dag.dfs = [3, 1, 0, 2] ∧ dag.bfs = [3, 1, 2, 0] ∧ dag.edges = [⟨3, 1, 0⟩, ⟨3, 2, 1⟩, ⟨1, 0, 0⟩] := by
  decide

end Equational.Dag
