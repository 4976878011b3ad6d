import Equational.Problem

/-! Substitutions: finite maps from variables to terms that remember the order in which their
variables were bound. Bindings are facts. `add` refuses to rebind a variable to a different
term, and a variable bound to itself is not stored. -/

namespace Equational

structure Substitution where
  bindings : List (Variable × Term) := []
  distinct : (bindings.map Prod.fst).Nodup := by simp

namespace Substitution

def empty : Substitution := {}

def domain (σ : Substitution) : List Variable :=
  σ.bindings.map Prod.fst

def range (σ : Substitution) : List Term :=
  σ.bindings.map Prod.snd

def size (σ : Substitution) : Nat :=
  σ.bindings.length

def isEmpty (σ : Substitution) : Bool :=
  σ.bindings.isEmpty

def find? (σ : Substitution) (v : Variable) : Option Term :=
  σ.bindings.lookup v

def contains (σ : Substitution) (v : Variable) : Bool :=
  (σ.find? v).isSome

theorem find?_eq_none_iff {σ : Substitution} {v : Variable} : σ.find? v = none ↔ v ∉ σ.domain := by
  simp only [find?, domain, List.lookup_eq_none_iff, List.mem_map, not_exists, not_and, bne_iff_ne, ne_eq]
  constructor <;> exact fun absent p member same => absent p member same.symm

theorem mem_range_of_find? {σ : Substitution} {v : Variable} {t : Term} (found : σ.find? v = some t) :
    t ∈ σ.range := by
  obtain ⟨before, after, shape, _⟩ := List.lookup_eq_some_iff.mp found
  simp [range, shape]

def keep (σ : Substitution) (test : Variable × Term → Bool) : Substitution where
  bindings := σ.bindings.filter test
  distinct := σ.distinct.sublist (List.filter_sublist.map _)

def mapRange (σ : Substitution) (f : Term → Term) : Substitution where
  bindings := σ.bindings.map fun p => (p.1, f p.2)
  distinct := by simpa [Function.comp_def] using σ.distinct

def extend (σ : Substitution) (v : Variable) (t : Term) (unbound : v ∉ σ.domain) : Substitution where
  bindings := σ.bindings ++ [(v, t)]
  distinct := by
    simp only [List.map_append, List.map_cons, List.map_nil, List.nodup_append, List.mem_cons, List.not_mem_nil,
      or_false]
    exact ⟨σ.distinct, by simp, fun a member b same equal => unbound (same ▸ equal ▸ member)⟩

/-- Binds the variable unless it is bound already. -/
def insertNew (σ : Substitution) (v : Variable) (t : Term) : Substitution :=
  if bound : v ∈ σ.domain then σ else σ.extend v t bound

def checkSort (v : Variable) (t : Term) : Except Failure Unit :=
  if v.sort == t.sort then .ok () else .error (.sortMismatch v.sort t.sort)

/-- Adds a binding that keeps the sort and contradicts no earlier one. -/
def add (σ : Substitution) (v : Variable) (t : Term) : Except Failure Substitution := do
  checkSort v t
  match σ.find? v with
  | some bound => if bound == t then return σ else throw (.conflictingBinding v)
  | none => return if t == .var v then σ else σ.insertNew v t

def singleton (v : Variable) (t : Term) : Except Failure Substitution :=
  empty.add v t

def erase (σ : Substitution) (v : Variable) : Substitution :=
  σ.keep fun p => p.1 != v

/-- Unbinds the variable and gives the term that it was bound to. -/
def remove (σ : Substitution) (v : Variable) : Option Term × Substitution :=
  (σ.find? v, σ.erase v)

/-- Overwrites a binding, which moves to the end. -/
def replace (σ : Substitution) (v : Variable) (t : Term) : Except Failure Substitution := do
  checkSort v t
  return if t == .var v then σ.erase v else (σ.erase v).insertNew v t

/-- The bindings of the given variables, in the order given. -/
def restrict (σ : Substitution) (vars : List Variable) : Substitution :=
  vars.foldl (fun result v => (σ.find? v).elim result (result.insertNew v)) empty

/-- No bound variable occurs in a bound term, so applying twice is applying once. -/
def isIdempotent (σ : Substitution) : Bool :=
  σ.range.all fun t => σ.domain.all fun v => !t.contains v

def toProblem (σ : Substitution) : Problem :=
  .ofList (σ.bindings.map fun p => ⟨.var p.1, p.2⟩)

/-- The same variables are bound to equal terms, in whatever order. -/
def sameMap (σ τ : Substitution) : Bool :=
  σ.size == τ.size && σ.bindings.all fun p => (τ.find? p.1).any (p.2 == ·)

instance : BEq Substitution := ⟨sameMap⟩

/-- Bindings are listed by the names of their variables. -/
def display (naming : Naming) (σ : Substitution) : String :=
  let named := σ.bindings.map fun p => (naming.ofVariable p.1.id, p.2.display naming)
  let ordered := named.mergeSort fun a b => !decide (b.1 < a.1)
  displayBlock (ordered.map fun p => p.1 ++ " ↦ " ++ p.2)

end Substitution

end Equational
