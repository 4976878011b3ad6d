import Equational.Term.Application

/-! Terms as graphs in which equal subterms share a node. Nodes are numbered as they are
finished, so the children of a node come before it. An application that equals one of its own
subterms, such as an associative symbol around a single argument of that symbol, is a node of its
own, and stands for both from then on. -/

namespace Equational

inductive DagNode where
  | var (v : Variable)
  | const (c : Constant)
  | node (f : FunctionSymbol) (children : List Nat)
  deriving DecidableEq

/-- The argument edges of the graph carry the place of the argument. -/
structure DagEdge where
  parent : Nat
  child : Nat
  place : Nat
  deriving DecidableEq

/-- The index lists the terms of the nodes with their numbers, the newest first. -/
structure Dag where
  nodes : List DagNode := []
  index : List (Term × Nat) := []
  root : Nat := 0

namespace Dag

/-- The newest node of an equal term. -/
def lookup (dag : Dag) (t : Term) : Option Nat :=
  (dag.index.find? (·.1 == t)).map Prod.snd

def push (dag : Dag) (node : DagNode) (t : Term) : Nat × Dag :=
  let i := dag.nodes.length
  (i, { dag with nodes := dag.nodes ++ [node], index := (t, i) :: dag.index })

mutual

/-- The number of the term. If no equal term is in the graph, its arguments are entered and then
the term itself, also where one of them brought in an equal term. -/
def intern : Term → Dag → Nat × Dag
  | .var v, dag =>
    match dag.lookup (.var v) with
    | some i => (i, dag)
    | none => dag.push (.var v) (.var v)
  | .const c, dag =>
    match dag.lookup (.const c) with
    | some i => (i, dag)
    | none => dag.push (.const c) (.const c)
  | .node f args, dag =>
    match dag.lookup (.node f args) with
    | some i => (i, dag)
    | none =>
      let (children, dag) := internList args dag
      dag.push (.node f children) (.node f args)

def internList : List Term → Dag → List Nat × Dag
  | [], dag => ([], dag)
  | arg :: args, dag =>
    let (i, dag) := intern arg dag
    let (children, dag) := internList args dag
    (i :: children, dag)

end

def ofTerm (t : Term) : Dag :=
  let (root, dag) := intern t {}
  { dag with root }

def size (dag : Dag) : Nat :=
  dag.nodes.length

def isEmpty (dag : Dag) : Bool :=
  dag.nodes.isEmpty

def node? (dag : Dag) (i : Nat) : Option DagNode :=
  dag.nodes[i]?

def children (dag : Dag) (i : Nat) : List Nat :=
  match dag.node? i with
  | some (.node _ children) => children
  | _ => []

/-- The terms of the nodes in order, rebuilt from the terms of their children. -/
def terms (dag : Dag) : List (Option Term) :=
  dag.nodes.foldl (fun built node => built ++ [rebuild built node]) []
where
  rebuild (built : List (Option Term)) : DagNode → Option Term
    | .var v => some (.var v)
    | .const c => some (.const c)
    | .node f children => (children.mapM fun i => built[i]?.join).map (.app f)

def toTerm? (dag : Dag) (i : Nat) : Option Term :=
  dag.terms[i]?.join

def edgeCount (dag : Dag) : Nat :=
  (dag.nodes.flatMap fun
    | .node _ children => children
    | _ => []).length

/-- The argument edges of the node, by place. -/
def outgoing (dag : Dag) (parent : Nat) : List DagEdge :=
  (dag.children parent).zipIdx.map fun (child, place) => { parent, child, place }

/-- Visits nodes in depth-first order from the stack, each once, and lists what is seen there. A node
leaves its children on the stack when it is first met, so every edge is followed once. -/
def depthFirst (dag : Dag) (visit : Nat → List α) : (fuel : Nat) → (seen stack : List Nat) → List α
  | 0, _, _ => []
  | _, _, [] => []
  | fuel + 1, seen, i :: stack =>
    if seen.contains i then dag.depthFirst visit fuel seen stack
    else visit i ++ dag.depthFirst visit fuel (i :: seen) (dag.children i ++ stack)

def dfs (dag : Dag) : List Nat :=
  dag.depthFirst (fun i => [i]) (dag.edgeCount + 1) [] [dag.root]

/-- Every argument edge, grouped by parent in depth-first order. -/
def edges (dag : Dag) : List DagEdge :=
  dag.depthFirst dag.outgoing (dag.edgeCount + 1) [] [dag.root]

/-- Breadth-first order from the queue, whose members are all seen already. -/
def breadthFirst (dag : Dag) : (fuel : Nat) → (seen queue : List Nat) → List Nat
  | 0, _, _ => []
  | _, _, [] => []
  | fuel + 1, seen, i :: queue =>
    let new := (dag.children i).eraseDups.filter (!seen.contains ·)
    i :: dag.breadthFirst fuel (new ++ seen) (queue ++ new)

def bfs (dag : Dag) : List Nat :=
  dag.breadthFirst dag.size [dag.root] [dag.root]

end Dag

end Equational
