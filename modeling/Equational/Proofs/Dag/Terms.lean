import Equational.Proofs.Dag.Paths

/-! The terms of the nodes of a graph. They are rebuilt in order, so the terms of the earlier nodes do
not depend on the later ones, and the term of a node is built of the terms of its children. -/

namespace Equational.Dag

variable {P : Term → Prop} {dag : Dag} {built : List (Option Term)} {i : Nat} {t : Term}

private theorem exists_foldl_rebuild (nodes : List DagNode) (built : List (Option Term)) : ∃ more,
    nodes.foldl (fun built node => built ++ [terms.rebuild built node]) built = built ++ more ∧
      more.length = nodes.length := by
  induction nodes generalizing built with
  | nil => exact ⟨[], by simp⟩
  | cons node nodes ih =>
    obtain ⟨more, same, length⟩ := ih (built ++ [terms.rebuild built node])
    exact ⟨terms.rebuild built node :: more, by simp [same], by simp [length]⟩

private theorem length_terms (dag : Dag) : dag.terms.length = dag.size := by
  obtain ⟨more, same, length⟩ := exists_foldl_rebuild dag.nodes []
  rw [terms, same, List.nil_append, length, size]

private theorem terms_push (node : DagNode) :
    (dag.push node t).2.terms = dag.terms ++ [terms.rebuild dag.terms node] := by
  simp [terms, push, List.foldl_append]

theorem toTerm?_push_of_lt (node : DagNode) (old : i < dag.size) :
    (dag.push node t).2.toTerm? i = dag.toTerm? i := by
  rw [toTerm?, toTerm?, terms_push, List.getElem?_append_left (by rwa [length_terms])]

theorem toTerm?_push (node : DagNode) :
    (dag.push node t).2.toTerm? dag.size = terms.rebuild dag.terms node := by
  rw [toTerm?, terms_push, ← length_terms, List.getElem?_concat_length]
  rfl

private theorem mem_of_mapM {children : List Nat} {args : List Term}
    (collected : children.mapM (fun i => built[i]?.join) = some args) :
    ∀ arg ∈ args, some arg ∈ built := by
  induction children generalizing args with
  | nil =>
    cases collected
    exact List.forall_mem_nil _
  | cons i children ih =>
    rw [List.mapM_cons] at collected
    obtain ⟨first, found, rest⟩ := Option.bind_eq_some_iff.mp collected
    obtain ⟨others, later, same⟩ := Option.bind_eq_some_iff.mp rest
    cases same
    exact List.forall_mem_cons.mpr ⟨List.mem_of_getElem? (Option.join_eq_some_iff.mp found), ih later⟩

section Kept

variable (var : ∀ v, P (.var v)) (const : ∀ c, P (.const c))
  (app : ∀ (f : FunctionSymbol) (args : List Term), (∀ arg ∈ args, P arg) → P (.app f args))
include var const app

private theorem of_rebuild (earlier : ∀ s, some s ∈ built → P s) {node : DagNode}
    (made : terms.rebuild built node = some t) : P t := by
  cases node with
  | var v =>
    cases made
    exact var v
  | const c =>
    cases made
    exact const c
  | node f children =>
    obtain ⟨args, collected, rfl⟩ := Option.map_eq_some_iff.mp made
    exact app f args fun arg member => earlier arg (mem_of_mapM collected arg member)

/-- What holds of leaves, and of applications when it holds of the arguments, holds of the term of every node. -/
theorem of_toTerm? {i : Nat} (found : dag.toTerm? i = some t) : P t := by
  have all (nodes : List DagNode) {built : List (Option Term)} (earlier : ∀ s, some s ∈ built → P s) :
      ∀ s, some s ∈ nodes.foldl (fun built node => built ++ [terms.rebuild built node]) built → P s := by
    induction nodes generalizing built with
    | nil => exact earlier
    | cons node nodes ih =>
      refine ih fun s member => ?_
      rcases List.mem_append.mp member with old | new
      · exact earlier s old
      · exact of_rebuild var const app earlier (List.mem_singleton.mp new).symm
  exact all dag.nodes (fun _ none => (List.not_mem_nil none).elim) t
    (List.mem_of_getElem? (Option.join_eq_some_iff.mp found))

end Kept

end Equational.Dag
