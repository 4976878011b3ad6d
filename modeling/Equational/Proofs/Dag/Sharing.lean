import Equational.Proofs.Dag.Paths
import Equational.Proofs.Dag.Terms
import Equational.Proofs.Repetition
import Equational.Proofs.Term.Canonical
import Equational.Proofs.Term.Position
import Mathlib.Data.List.Nodup

/-! The graph of a canonical term. An equal term that is met later is not descended into, so its
arguments have nodes only because they equal those of the term met first: in canonical shape equal
applications have equal arguments, up to their order. Equal terms are equally large then, so no
argument of an application brings in a term equal to it. -/

namespace Equational

namespace Term

variable {f : FunctionSymbol} {xs ys : List Term} {t : Term}

private theorem shapes_of_isCanonical (canonical : (node f xs).isCanonical = true) : shapes f xs = xs.map shape :=
  shapes_of_not_absorbed (isReduced_iff.mp (isCanonical_node.mp canonical).1).1

private theorem sizeList_perm (same : xs.Perm ys) : sizeList xs = sizeList ys := by
  induction same with
  | nil => rfl
  | cons x _ ih => rw [sizeList, sizeList, ih]
  | swap x y xs => simp only [sizeList, Nat.add_left_comm]
  | trans _ _ first second => exact first.trans second

private theorem sizeList_map {change : Term → Term} (each : ∀ x ∈ xs, (change x).size = x.size) :
    sizeList (xs.map change) = sizeList xs := by
  induction xs with
  | nil => rfl
  | cons x xs ih =>
    obtain ⟨first, others⟩ := List.forall_mem_cons.mp each
    rw [List.map_cons, sizeList, sizeList, first, ih others]

private theorem size_shape_of_isCanonical (canonical : t.isCanonical = true) : t.shape.size = t.size := by
  induction t with
  | var v | const c => rfl
  | node f args ih =>
    have each : ∀ arg ∈ args, arg.shape.size = arg.size :=
      fun arg member => ih arg member ((isCanonical_node.mp canonical).2 arg member)
    rw [shape, size, size, sizeList_perm (aligned_arrange f _).perm, shapes_of_isCanonical canonical,
      sizeList_map each]

private theorem exists_argument_of_shape_eq (left : (node f xs).isCanonical = true)
    (right : (node f ys).isCanonical = true)
    (same : (node f xs).shape = (node f ys).shape) : ∀ x ∈ xs, ∃ y ∈ ys, y.shape = x.shape := by
  intro x member
  have aligned := (shape_node_eq_iff.mp same).2
  rw [shapes_of_isCanonical left, shapes_of_isCanonical right] at aligned
  exact List.mem_map.mp (aligned.perm.mem_iff.mp (List.mem_map_of_mem member))

end Term

namespace Dag

variable {dag dag' dag'' : Dag} {i : Nat} {s t : Term} {ts : List Term} {ids : List Nat}

section Lookup

private theorem exists_of_lookup (found : dag.lookup t = some i) : ∃ s, (s, i) ∈ dag.index ∧ s.shape = t.shape := by
  obtain ⟨⟨s, j⟩, first, rfl⟩ := Option.map_eq_some_iff.mp found
  have equal : (s == t) = true := by simpa using List.find?_some first
  exact ⟨s, List.mem_of_find?_eq_some first, Term.beq_iff_shape.mp equal⟩

private theorem lookup_eq_none_iff : dag.lookup t = none ↔ ∀ p ∈ dag.index, p.1.shape ≠ t.shape := by
  rw [lookup, Option.map_eq_none_iff, List.find?_eq_none]
  exact forall₂_congr fun p _ => not_congr Term.beq_iff_shape

private theorem lookup_congr (same : s.shape = t.shape) : dag.lookup s = dag.lookup t := by
  have test : (fun p : Term × Nat => p.1 == s) = fun p => p.1 == t := by
    funext p
    rw [Bool.eq_iff_iff, Term.beq_iff_shape, Term.beq_iff_shape, same]
  rw [lookup, lookup, test]

private theorem lookup_push (node : DagNode) :
    (dag.push node t).2.lookup s = if t == s then some dag.size else dag.lookup s := by
  simp only [push, lookup, List.find?_cons]
  split <;> rename_i test <;> simp [test, size]

private theorem exists_lookup_of_forall₂ (found : List.Forall₂ (fun t i => dag.lookup t = some i) ts ids) :
    ∀ t ∈ ts, ∃ i, dag.lookup t = some i := by
  induction found with
  | nil => exact List.forall_mem_nil _
  | cons first _ ih => exact List.forall_mem_cons.mpr ⟨⟨_, first⟩, ih⟩

end Lookup

/-- Every node stands for one indexed term, no two of which are equal, and the arguments of indexed
terms have nodes as well. -/
structure Shared (dag : Dag) : Prop where
  numbered : dag.index.map Prod.snd = (List.range dag.size).reverse
  distinct : (dag.index.map fun p => p.1.shape).Nodup
  canonical : ∀ p ∈ dag.index, p.1.isCanonical = true
  represents : ∀ p ∈ dag.index, ∃ u, dag.toTerm? p.2 = some u ∧ u.shape = p.1.shape
  closed : ∀ p ∈ dag.index, ∀ arg ∈ p.1.arguments, ∃ i, dag.lookup arg = some i

namespace Shared

private theorem empty : Shared {} where
  numbered := rfl
  distinct := List.nodup_nil
  canonical := List.forall_mem_nil _
  represents := List.forall_mem_nil _
  closed := List.forall_mem_nil _

variable (shared : dag.Shared)

include shared

private theorem lt_size (member : (s, i) ∈ dag.index) : i < dag.size := by
  have number : i ∈ dag.index.map Prod.snd := List.mem_map_of_mem member
  rw [shared.numbered, List.mem_reverse, List.mem_range] at number
  exact number

private theorem lookup_eq_some_iff : dag.lookup t = some i ↔ ∃ s, (s, i) ∈ dag.index ∧ s.shape = t.shape := by
  refine ⟨exists_of_lookup, fun ⟨s, member, same⟩ => ?_⟩
  cases found : dag.lookup t with
  | none => exact absurd same (lookup_eq_none_iff.mp found _ member)
  | some j =>
    obtain ⟨s', member', same'⟩ := exists_of_lookup found
    have equal := List.inj_on_of_nodup_map shared.distinct member' member (same'.trans same.symm)
    rw [(Prod.mk.inj equal).2]

private theorem shape_eq_of_lookup (first : dag.lookup s = some i) (second : dag.lookup t = some i) :
    s.shape = t.shape := by
  obtain ⟨s', member, same⟩ := exists_of_lookup first
  obtain ⟨t', member', same'⟩ := exists_of_lookup second
  have numbers : (dag.index.map Prod.snd).Nodup := by
    rw [shared.numbered]
    exact List.nodup_reverse.mpr List.nodup_range
  have equal := List.inj_on_of_nodup_map numbers member member' rfl
  rw [← same, ← same', (Prod.mk.inj equal).1]

private theorem exists_toTerm? (found : dag.lookup t = some i) : ∃ u, dag.toTerm? i = some u ∧ u.shape = t.shape := by
  obtain ⟨s, member, same⟩ := exists_of_lookup found
  obtain ⟨u, rebuilt, equal⟩ := shared.represents _ member
  exact ⟨u, rebuilt, equal.trans same⟩

private theorem exists_mapM_toTerm? (found : List.Forall₂ (fun t i => dag.lookup t = some i) ts ids) :
    ∃ us, ids.mapM dag.toTerm? = some us ∧ List.Forall₂ (fun u t => u.shape = t.shape) us ts := by
  induction found with
  | nil => exact ⟨[], rfl, .nil⟩
  | cons first _ ih =>
    obtain ⟨u, rebuilt, same⟩ := shared.exists_toTerm? first
    obtain ⟨us, others, each⟩ := ih
    exact ⟨u :: us, by simp [List.mapM_cons, rebuilt, others], .cons same each⟩

private theorem exists_lookup_of_mem_subterms (canonical : t.isCanonical = true) (found : ∃ i, dag.lookup t = some i)
    (inside : s ∈ t.subterms) : ∃ i, dag.lookup s = some i := by
  induction t with
  | var v | const c =>
    obtain rfl | ⟨arg, member, _⟩ := Term.mem_subterms_iff.mp inside
    · exact found
    · cases member
  | node f args ih =>
    obtain rfl | ⟨arg, member, below⟩ := Term.mem_subterms_iff.mp inside
    · exact found
    · refine ih arg member ((Term.isCanonical_node.mp canonical).2 arg member) ?_ below
      obtain ⟨i, found⟩ := found
      obtain ⟨u, indexed, same⟩ := exists_of_lookup found
      obtain ⟨xs, rfl⟩ := Term.exists_of_shape_eq same.symm
      obtain ⟨x, argument, equal⟩ :=
        Term.exists_argument_of_shape_eq canonical (shared.canonical _ indexed) same.symm arg member
      rw [← lookup_congr equal]
      exact shared.closed _ indexed x argument

private theorem push {node : DagNode} (canonical : t.isCanonical = true) (unknown : dag.lookup t = none)
    (stands : ∃ u, terms.rebuild dag.terms node = some u ∧ u.shape = t.shape)
    (arguments : ∀ arg ∈ t.arguments, ∃ i, dag.lookup arg = some i) : (dag.push node t).2.Shared where
  numbered := by
    rw [size_push, List.range_succ, List.reverse_append, ← shared.numbered]
    rfl
  distinct := List.nodup_cons.mpr ⟨by simpa using lookup_eq_none_iff.mp unknown, shared.distinct⟩
  canonical := List.forall_mem_cons.mpr ⟨canonical, shared.canonical⟩
  represents := by
    refine List.forall_mem_cons.mpr ⟨?_, fun p member => ?_⟩
    · rw [← size, toTerm?_push]
      exact stands
    · rw [toTerm?_push_of_lt node (shared.lt_size member)]
      exact shared.represents p member
  closed := by
    have kept : ∀ arg, (∃ i, dag.lookup arg = some i) → ∃ i, (dag.push node t).2.lookup arg = some i := by
      intro arg found
      rw [lookup_push]
      split
      · exact ⟨_, rfl⟩
      · exact found
    refine List.forall_mem_cons.mpr ⟨fun arg member => kept arg (arguments arg member), ?_⟩
    exact fun p member arg argument => kept arg (shared.closed p member arg argument)

end Shared

/-- The second graph comes of the first by entering the terms, which have these nodes then. Only
their subterms are new to the index. -/
structure Shares (dag dag' : Dag) (ts : List Term) (ids : List Nat) : Prop where
  shared : dag'.Shared
  index : ∃ new, dag'.index = new ++ dag.index ∧ ∀ p ∈ new, ∃ t ∈ ts, p.1 ∈ t.subterms
  found : List.Forall₂ (fun t i => dag'.lookup t = some i) ts ids

namespace Shares

private theorem nothing (shared : dag.Shared) (found : List.Forall₂ (fun t i => dag.lookup t = some i) ts ids) :
    Shares dag dag ts ids where
  shared
  index := ⟨[], rfl, List.forall_mem_nil _⟩
  found := found

private theorem lookup (entered : Shares dag dag' ts ids) (found : dag.lookup s = some i) :
    dag'.lookup s = some i := by
  obtain ⟨new, same, _⟩ := entered.index
  obtain ⟨u, member, equal⟩ := exists_of_lookup found
  exact entered.shared.lookup_eq_some_iff.mpr ⟨u, same ▸ List.mem_append_right new member, equal⟩

private theorem cons (first : Shares dag dag' [t] [i]) (rest : Shares dag' dag'' ts ids) :
    Shares dag dag'' (t :: ts) (i :: ids) where
  shared := rest.shared
  index := by
    obtain ⟨new, same, inside⟩ := first.index
    obtain ⟨new', same', inside'⟩ := rest.index
    refine ⟨new' ++ new, by rw [same', same, List.append_assoc], fun p member => ?_⟩
    rcases List.mem_append.mp member with later | earlier
    · obtain ⟨u, listed, below⟩ := inside' p later
      exact ⟨u, List.mem_cons_of_mem t listed, below⟩
    · obtain ⟨u, listed, below⟩ := inside p earlier
      exact ⟨u, List.mem_cons.mpr (.inl (List.mem_singleton.mp listed)), below⟩
  found := by
    obtain ⟨node, -⟩ := List.forall₂_cons.mp first.found
    exact .cons (rest.lookup node) rest.found

/-- A term is entered on top of its arguments. They are smaller, so none of their subterms equals it. -/
theorem push {node : DagNode} (entered : Shares dag dag' t.arguments ids) (canonical : t.isCanonical = true)
    (unknown : dag.lookup t = none) (stands : ∃ u, terms.rebuild dag'.terms node = some u ∧ u.shape = t.shape) :
    Shares dag (dag'.push node t).2 [t] [(dag'.push node t).1] := by
  obtain ⟨new, same, inside⟩ := entered.index
  have unequal : dag'.lookup t = none := by
    -- Sizes can be compared because equal terms in canonical shape are equally large.
    refine lookup_eq_none_iff.mpr fun p member equal => ?_
    have canonical' := entered.shared.canonical p member
    rw [same] at member
    rcases List.mem_append.mp member with recent | earlier
    · obtain ⟨arg, argument, below⟩ := inside p recent
      have size := congrArg Term.size equal
      rw [Term.size_shape_of_isCanonical canonical', Term.size_shape_of_isCanonical canonical] at size
      have smaller := Term.size_le_of_mem_subterms below
      have larger := Term.size_lt_of_mem_arguments argument
      omega
    · exact lookup_eq_none_iff.mp unknown p earlier equal
  refine ⟨entered.shared.push canonical unequal stands (exists_lookup_of_forall₂ entered.found), ?_, .cons ?_ .nil⟩
  · refine ⟨(t, dag'.size) :: new, congrArg _ same, List.forall_mem_cons.mpr ⟨?_, fun p recent => ?_⟩⟩
    · exact ⟨t, List.mem_singleton_self t, t.self_mem_subterms⟩
    · exact ⟨t, List.mem_singleton_self t, Term.mem_subterms_iff.mpr (.inr (inside p recent))⟩
  · rw [lookup_push, if_pos BEq.rfl, push_fst]

private theorem exists_rebuild {f : FunctionSymbol} {args : List Term} (entered : Shares dag dag' args ids)
    (canonical : (Term.node f args).isCanonical = true) :
    ∃ u, terms.rebuild dag'.terms (.node f ids) = some u ∧ u.shape = (Term.node f args).shape := by
  obtain ⟨us, rebuilt, each⟩ := entered.shared.exists_mapM_toTerm? entered.found
  refine ⟨.app f us, congrArg (Option.map (Term.app f)) rebuilt, ?_⟩
  rw [Term.app_congr each, Term.app_of_isReduced (Term.isCanonical_node.mp canonical).1]

end Shares

mutual

private theorem shares_intern (t : Term) {dag : Dag} (shared : dag.Shared) (canonical : t.isCanonical = true) :
    Shares dag (intern t dag).2 [t] [(intern t dag).1] :=
  match t with
  | .var v => by
    simp only [intern]
    split
    next i found => exact .nothing shared (.cons found .nil)
    next unknown => exact .push (.nothing shared .nil) canonical unknown ⟨.var v, rfl, rfl⟩
  | .const c => by
    simp only [intern]
    split
    next i found => exact .nothing shared (.cons found .nil)
    next unknown => exact .push (.nothing shared .nil) canonical unknown ⟨.const c, rfl, rfl⟩
  | .node f args => by
    have arguments := shares_internList args shared (Term.isCanonical_node.mp canonical).2
    simp only [intern]
    split
    next i found => exact .nothing shared (.cons found .nil)
    next unknown => exact .push arguments canonical unknown (arguments.exists_rebuild canonical)
termination_by structural t

theorem shares_internList (ts : List Term) {dag : Dag} (shared : dag.Shared)
    (canonical : ∀ t ∈ ts, t.isCanonical = true) : Shares dag (internList ts dag).2 ts (internList ts dag).1 :=
  match ts with
  | [] => .nothing shared .nil
  | t :: ts =>
    have first := shares_intern t shared (List.forall_mem_cons.mp canonical).1
    first.cons (shares_internList ts first.shared (List.forall_mem_cons.mp canonical).2)
termination_by structural ts

end

section OfTerm

variable (canonical : t.isCanonical = true)

include canonical

private theorem shares_ofTerm : Shares {} (ofTerm t) [t] [(ofTerm t).root] := by
  have entered := shares_intern t Shared.empty canonical
  obtain ⟨numbered, distinct, reduced, represents, closed⟩ := entered.shared
  exact ⟨⟨numbered, distinct, reduced, represents, closed⟩, entered.index, entered.found⟩

private theorem shared_ofTerm : (ofTerm t).Shared :=
  (shares_ofTerm canonical).shared

private theorem lookup_root : (ofTerm t).lookup t = some (ofTerm t).root :=
  (List.forall₂_cons.mp (shares_ofTerm canonical).found).1

private theorem mem_subterms_of_mem_index : ∀ p ∈ (ofTerm t).index, p.1 ∈ t.subterms := by
  obtain ⟨new, same, inside⟩ := (shares_ofTerm canonical).index
  intro p member
  rw [same, List.append_nil] at member
  obtain ⟨u, listed, below⟩ := inside p member
  rwa [List.mem_singleton.mp listed] at below

private theorem exists_lookup_subterm (inside : s ∈ t.subterms) : ∃ i, (ofTerm t).lookup s = some i :=
  (shared_ofTerm canonical).exists_lookup_of_mem_subterms canonical ⟨_, lookup_root canonical⟩ inside

/-- The node of a subterm is that of the terms equal to it, and of no others. -/
theorem lookup_eq_iff {s' : Term} (inside : s ∈ t.subterms) :
    (ofTerm t).lookup s = (ofTerm t).lookup s' ↔ (s == s') = true := by
  rw [Term.beq_iff_shape]
  refine ⟨fun same => ?_, lookup_congr⟩
  obtain ⟨i, found⟩ := exists_lookup_subterm canonical inside
  exact (shared_ofTerm canonical).shape_eq_of_lookup found (same ▸ found)

private theorem lookup_ofTerm_eq_none_iff {u : Term} :
    (ofTerm t).lookup u = none ↔ ∀ s ∈ t.subterms, (s == u) = false := by
  rw [lookup_eq_none_iff]
  constructor
  · intro unknown s inside
    obtain ⟨i, found⟩ := exists_lookup_subterm canonical inside
    obtain ⟨s', member, same⟩ := exists_of_lookup found
    exact Term.beq_eq_false_iff_shape.mpr (same ▸ unknown _ member)
  · intro different p member
    exact Term.beq_eq_false_iff_shape.mp (different p.1 (mem_subterms_of_mem_index canonical p member))

private theorem exists_subterm_of_lt {i : Nat} (node : i < (ofTerm t).size) :
    ∃ s ∈ t.subterms, (ofTerm t).lookup s = some i := by
  have number : i ∈ (ofTerm t).index.map Prod.snd := by
    rw [(shared_ofTerm canonical).numbered, List.mem_reverse, List.mem_range]
    exact node
  obtain ⟨⟨s, _⟩, member, rfl⟩ := List.mem_map.mp number
  exact ⟨s, mem_subterms_of_mem_index canonical _ member,
    (shared_ofTerm canonical).lookup_eq_some_iff.mpr ⟨s, member, rfl⟩⟩

private theorem size_ofTerm : (ofTerm t).size = t.subterms.eraseDups.length := by
  have shared := shared_ofTerm canonical
  have differ : (t.subterms.eraseDups.map Term.shape).Nodup := by
    refine List.pairwise_map.mpr ((List.pairwise_eraseDups t.subterms).imp fun {a b} distinct same => ?_)
    exact Term.beq_eq_false_iff_shape.mp distinct same.symm
  have perm : ((ofTerm t).index.map fun p => p.1.shape).Perm (t.subterms.eraseDups.map Term.shape) := by
    refine (List.perm_ext_iff_of_nodup shared.distinct differ).mpr fun class' => ?_
    rw [List.mem_map, List.mem_map]
    constructor
    · rintro ⟨p, member, rfl⟩
      obtain ⟨s, kept, same⟩ := List.exists_mem_eraseDups (mem_subterms_of_mem_index canonical p member)
      exact ⟨s, kept, (Term.beq_iff_shape.mp same).symm⟩
    · rintro ⟨s, kept, rfl⟩
      obtain ⟨i, found⟩ := exists_lookup_subterm canonical (List.mem_of_mem_eraseDups kept)
      obtain ⟨s', member, same⟩ := exists_of_lookup found
      exact ⟨(s', i), member, same⟩
  have lengths := perm.length_eq
  have numbers := congrArg List.length shared.numbered
  rw [List.length_map, List.length_map] at lengths
  rw [List.length_map, List.length_reverse, List.length_range] at numbers
  exact numbers.symm.trans lengths

end OfTerm

/-- Up to equality a canonical term and its graph are the same. -/
theorem represents_ofTerm {t : Term} (canonical : t.isCanonical = true) :
    let dag := ofTerm t
    (∀ s ∈ t.subterms, ∃ i u, dag.lookup s = some i ∧ dag.toTerm? i = some u ∧ (u == s) = true) ∧
      (∀ s ∈ t.subterms, ∀ s' ∈ t.subterms, dag.lookup s = dag.lookup s' ↔ (s == s') = true) ∧
      (∀ i < dag.size, ∃ s ∈ t.subterms, dag.lookup s = some i) ∧
      dag.size = t.subterms.eraseDups.length ∧
      (∀ i, ∀ j ∈ dag.children i, j < i) ∧
      (∀ u, dag.lookup u = none ↔ ∀ s ∈ t.subterms, (s == u) = false) ∧
      ∃ u, dag.toTerm? dag.root = some u ∧ (u == t) = true := by
  have shared := shared_ofTerm canonical
  refine ⟨fun s inside => ?_, fun s inside s' _ => lookup_eq_iff canonical inside,
    fun i node => exists_subterm_of_lt canonical node, size_ofTerm canonical, (isOrdered_ofTerm t).lt,
    fun u => lookup_ofTerm_eq_none_iff canonical, ?_⟩
  · obtain ⟨i, found⟩ := exists_lookup_subterm canonical inside
    obtain ⟨u, rebuilt, same⟩ := shared.exists_toTerm? found
    exact ⟨i, u, found, rebuilt, Term.beq_iff_shape.mpr same⟩
  · obtain ⟨u, rebuilt, same⟩ := shared.exists_toTerm? (lookup_root canonical)
    exact ⟨u, rebuilt, Term.beq_iff_shape.mpr same⟩

/-- Two sums of the same terms in different order share a node, and so do the terms. -/
theorem represents_ofTerm_variants :
    let f : FunctionSymbol := ⟨⟨0⟩, 2, .associativeCommutative, .default, .default⟩
    let h : FunctionSymbol := ⟨⟨1⟩, 2, .free, .default, .default⟩
    let a : Term := .const ⟨⟨0⟩, .default⟩
    let b : Term := .const ⟨⟨1⟩, .default⟩
    let t : Term := .node h [.node f [a, b], .node f [b, a]]
    let dag := ofTerm t
    t.isCanonical = true ∧ dag.size = 4 ∧ dag.lookup (.node f [a, b]) = dag.lookup (.node f [b, a]) ∧
      dag.lookup (.node f [a, a]) = none ∧ ∃ u, dag.toTerm? dag.root = some u ∧ (u == t) = true := by
  intro f h a b t dag
  have canonical : t.isCanonical = true := by decide
  obtain ⟨-, shared, -, size, -, absent, root⟩ := represents_ofTerm canonical
  have first : Term.node f [a, b] ∈ t.subterms := Term.mem_subterms.mpr ⟨[0], rfl⟩
  have second : Term.node f [b, a] ∈ t.subterms := Term.mem_subterms.mpr ⟨[1], rfl⟩
  exact ⟨canonical, size.trans rfl, (shared _ first _ second).mpr rfl, (absent _).mpr (by decide), root⟩

end Dag

end Equational
