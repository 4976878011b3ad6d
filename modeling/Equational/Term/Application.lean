import Equational.Term.Equality
import Equational.Failure

/-! Building applications. `app` brings the application of a symbol to canonical arguments into
canonical shape; `checked` also requires that the arguments fit the symbol. -/

namespace Equational

namespace Term

/-- The arguments with direct applications of the associative symbol `f` spliced in. -/
def spliced (f : FunctionSymbol) : List Term → List Term
  | [] => []
  | node g inner :: args => if g == f then inner ++ spliced f args else node g inner :: spliced f args
  | arg :: args => arg :: spliced f args

/-- An associative symbol absorbs arguments that it is applied in; an idempotent symbol
applied to two equal arguments is the first of them. -/
def app (f : FunctionSymbol) (args : List Term) : Term :=
  match f.theory with
  | .associative | .associativeCommutative => node f (spliced f args)
  | .idempotent =>
    match args with
    | [s, t] => if s == t then s else node f [s, t]
    | _ => node f args
  | .free | .commutative => node f args

theorem sizeList_spliced_le (f : FunctionSymbol) (args : List Term) :
    sizeList (spliced f args) ≤ sizeList args := by
  fun_induction spliced f args with
  | case1 => exact Nat.le_refl _
  | case2 g inner args _ ih => simp only [sizeList_append, sizeList, size]; omega
  | case3 g inner args _ ih => simp only [sizeList]; omega
  | case4 arg args _ ih => simp only [sizeList]; omega

theorem mem_varsList_spliced {v : Variable} {f : FunctionSymbol} {args : List Term} :
    v ∈ varsList (spliced f args) ↔ v ∈ varsList args := by
  fun_induction spliced f args with
  | case1 => rfl
  | case2 g inner args _ ih =>
    simp only [mem_varsList] at ih
    simp [mem_varsList, vars, List.mem_append, or_and_right, exists_or, ih]
  | case3 g inner args _ ih => simp [varsList, ih]
  | case4 arg args _ ih => simp [varsList, ih]

/-- Canonical shape never costs symbols. -/
theorem size_app_le (f : FunctionSymbol) (args : List Term) : (app f args).size ≤ 1 + sizeList args := by
  have shorter := sizeList_spliced_le f args
  unfold app
  split
  · simp only [size]; omega
  · simp only [size]; omega
  · split
    · split <;> simp only [size, sizeList] <;> omega
    · simp [size]
  · simp [size]
  · simp [size]

theorem mem_vars_app {v : Variable} {f : FunctionSymbol} {args : List Term}
    (member : v ∈ (app f args).vars) : v ∈ varsList args := by
  unfold app at member
  split at member
  · simpa [vars, mem_varsList_spliced] using member
  · simpa [vars, mem_varsList_spliced] using member
  · split at member
    · split at member
      · simp [varsList, member]
      · simpa [vars] using member
    · simpa [vars] using member
  · simpa [vars] using member
  · simpa [vars] using member

/-- The number of arguments must be the arity and every argument must have the domain sort;
the arity is checked first. -/
def checked (f : FunctionSymbol) (args : List Term) : Except Failure Term :=
  if args.length != f.arity then
    .error (.arityMismatch f.arity args.length)
  else
    match args.find? (fun arg => arg.sort != f.domain) with
    | some arg => .error (.sortMismatch f.domain arg.sort)
    | none => .ok (app f args)

end Term

end Equational
