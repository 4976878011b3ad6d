import Equational.Symbol

/-! Terms, and what can be read off them. A term is stored as it was built: `node` neither
flattens nor checks its arguments. Functions over the arguments come in pairs, one for a term
and one for a list, so that each is structural. -/

namespace Equational

inductive Term where
  | var (v : Variable)
  | const (c : Constant)
  | node (f : FunctionSymbol) (args : List Term)

namespace Term

/-- Induction in which a node may assume the motive of every argument. -/
@[induction_eliminator]
theorem induction {motive : Term → Prop} (var : ∀ v, motive (.var v)) (const : ∀ c, motive (.const c))
    (node : ∀ f args, (∀ arg ∈ args, motive arg) → motive (.node f args)) (term : Term) : motive term :=
  Term.rec (motive_2 := fun args => ∀ arg ∈ args, motive arg) var const node (by simp)
    (fun _ _ head tail => by simpa using ⟨head, tail⟩) term

def sort : Term → SortId
  | var v => v.sort
  | const c => c.sort
  | node f _ => f.range

def isVariable : Term → Bool
  | var _ => true
  | _ => false

def asVariable : Term → Option Variable
  | var v => some v
  | _ => none

def head? : Term → Option FunctionSymbol
  | node f _ => some f
  | _ => none

def arguments : Term → List Term
  | node _ args => args
  | _ => []

def isRootedAt (term : Term) (id : FunctionId) : Bool :=
  match term with
  | node f _ => f.id == id
  | _ => false

mutual

/-- The number of symbols and variables written in the term. -/
def size : Term → Nat
  | var _ => 1
  | const _ => 1
  | node _ args => 1 + sizeList args

def sizeList : List Term → Nat
  | [] => 0
  | arg :: args => arg.size + sizeList args

end

mutual

/-- Every occurrence of a variable, from left to right. -/
def vars : Term → List Variable
  | var v => [v]
  | const _ => []
  | node _ args => varsList args

def varsList : List Term → List Variable
  | [] => []
  | arg :: args => arg.vars ++ varsList args

end

mutual

/-- Whether the symbol of this number is applied anywhere in the term. -/
def mentions (id : FunctionId) : Term → Bool
  | var _ => false
  | const _ => false
  | node f args => f.id == id || mentionsList id args

def mentionsList (id : FunctionId) : List Term → Bool
  | [] => false
  | arg :: args => arg.mentions id || mentionsList id args

end

theorem size_pos (term : Term) : 0 < term.size := by
  cases term <;> simp only [size] <;> omega

theorem sizeList_append (xs ys : List Term) : sizeList (xs ++ ys) = sizeList xs + sizeList ys := by
  induction xs with
  | nil => simp [sizeList]
  | cons x xs ih => simp [sizeList, ih]; omega

theorem size_lt_of_mem {f : FunctionSymbol} {args : List Term} {arg : Term} (member : arg ∈ args) :
    arg.size < (node f args).size := by
  obtain ⟨before, after, rfl⟩ := List.append_of_mem member
  rw [size, sizeList_append, sizeList]
  omega

theorem mem_varsList {v : Variable} {args : List Term} :
    v ∈ varsList args ↔ ∃ arg ∈ args, v ∈ arg.vars := by
  induction args with
  | nil => simp [varsList]
  | cons arg args ih => simp [varsList, ih]

def contains (term : Term) (v : Variable) : Bool :=
  term.vars.contains v

def isGround (term : Term) : Bool :=
  term.vars.isEmpty

end Term

end Equational
