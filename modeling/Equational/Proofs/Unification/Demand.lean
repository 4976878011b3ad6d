import Equational.Proofs.Substitution
import Equational.Unification.Demand

/-! What two terms ask for is exactly what it takes to make them equal. Whatever the laws of the
symbols, an assignment that meets the demand makes the terms equal. Over free symbols the
converse holds too, and terms without a demand have no common instance. -/

namespace Equational

def Equation.Holds (e : Equation) (m : Variable → Term) : Prop :=
  (e.lhs.instantiate m).shape = (e.rhs.instantiate m).shape

/-- Symbols of one number are one symbol. -/
def Consistent (known : FunctionSymbol → Prop) : Prop :=
  ∀ f g, known f → known g → f.id = g.id → f = g

instance {symbols : List FunctionSymbol} : Decidable (Consistent (· ∈ symbols)) :=
  decidable_of_iff (∀ f ∈ symbols, ∀ g ∈ symbols, f.id = g.id → f = g)
    ⟨fun each f g left right => each f left g right, fun consistent f left g right => consistent f g left right⟩

namespace Demand

def Met (m : Variable → Term) : Demand → Prop
  | nothing => True
  | binding v t => (m v).shape = (t.instantiate m).shape
  | equations pending => ∀ e ∈ pending, e.Holds m

/-- The three demands, each with the terms that make it. -/
inductive Arises (s t : Term) : Demand → Prop where
  | nothing (equal : s.shape = t.shape) : Arises s t .nothing
  | binding {v : Variable} {u : Term} (sides : s = .var v ∧ u = t ∨ t = .var v ∧ u = s)
      (sorted : u.sort = v.sort) (fresh : v ∉ u.vars) : Arises s t (.binding v u)
  | equations {f g : FunctionSymbol} {xs ys : List Term} (left : s = .node f xs) (right : t = .node g ys)
      (same : f.id = g.id) (lengths : xs.length = ys.length) :
      Arises s t (.equations (List.zipWith Equation.mk xs ys))

private theorem bind_eq_ok {v : Variable} {u : Term} {d : Demand} (found : bind v u = .ok d) :
    d = .binding v u ∧ u.sort = v.sort ∧ v ∉ u.vars := by
  simp only [bind] at found
  split at found
  · cases found
  next sorts =>
    split at found
    · cases found
    next occurs =>
      cases found
      exact ⟨rfl, by simpa using Eq.symm (by simpa using sorts), by simpa [Term.contains] using occurs⟩

theorem arises_of_between {s t : Term} {d : Demand} (found : between s t = .ok d) : Arises s t d := by
  simp only [between] at found
  split at found
  next equal =>
    cases found
    exact .nothing (Term.beq_iff_shape.mp equal)
  · split at found
    next v =>
      obtain ⟨rfl, sorted, fresh⟩ := bind_eq_ok found
      exact .binding (.inl ⟨rfl, rfl⟩) sorted fresh
    next v _ =>
      obtain ⟨rfl, sorted, fresh⟩ := bind_eq_ok found
      exact .binding (.inr ⟨rfl, rfl⟩) sorted fresh
    · cases found
    · cases found
    · cases found
    next f xs g ys =>
      split at found
      · cases found
      next same =>
        split at found
        · cases found
        next lengths =>
          cases found
          exact .equations rfl rfl (by simpa using same) (by simpa using lengths)

/-- A variable and a term of its sort in which it does not occur ask for its binding. -/
theorem between_var {v : Variable} {t : Term} (sorted : t.sort = v.sort) (fresh : v ∉ t.vars) :
    between (.var v) t = .ok (.binding v t) := by
  have differs : (Term.var v == t) = false := by
    rw [Bool.eq_false_iff]
    intro same
    exact fresh (by simp [Substitution.eq_var_of_beq (BEq.symm same), Term.vars])
  simp [between, bind, differs, sorted, Term.contains, fresh]

private theorem holds_zipWith_iff {xs ys : List Term} (lengths : xs.length = ys.length) (m : Variable → Term) :
    (∀ e ∈ List.zipWith Equation.mk xs ys, e.Holds m) ↔
      List.Forall₂ (fun x y => (x.instantiate m).shape = (y.instantiate m).shape) xs ys := by
  induction xs generalizing ys with
  | nil =>
    cases ys with
    | nil => simp
    | cons y ys => cases lengths
  | cons x xs ih =>
    cases ys with
    | nil => cases lengths
    | cons y ys =>
      have tails : xs.length = ys.length := by simpa using lengths
      rw [List.zipWith_cons_cons, List.forall_mem_cons, List.forall₂_cons, ih tails]
      rfl

/-- Meeting the demand makes the terms equal. -/
theorem Arises.sound {s t : Term} {d : Demand} {m : Variable → Term} (arises : Arises s t d)
    (consistent : ∀ f g, s.head? = some f → t.head? = some g → f.id = g.id → f = g) (met : d.Met m) :
    (s.instantiate m).shape = (t.instantiate m).shape := by
  cases arises with
  | nothing equal => exact Term.instantiate_congr equal m
  | binding sides =>
    rcases sides with ⟨rfl, rfl⟩ | ⟨rfl, rfl⟩
    · exact met
    · exact met.symm
  | @equations f g xs ys left right same lengths =>
    subst left right
    obtain rfl := consistent f g rfl rfl same
    rw [Term.instantiate_node, Term.instantiate_node]
    refine Term.app_congr ?_
    rw [List.forall₂_map_left_iff, List.forall₂_map_right_iff]
    exact (holds_zipWith_iff lengths m).mp met

end Demand

namespace Term

abbrev IsFree (t : Term) : Prop :=
  t.Over (·.theory = .free)

theorem instantiate_free {f : FunctionSymbol} (free : f.theory = .free) (args : List Term) (m : Variable → Term) :
    ((node f args).instantiate m).shape = node f (args.map fun arg => (arg.instantiate m).shape) := by
  rw [instantiate_node, app_of_free free, shape_node_of_free free, List.map_map]
  rfl

private theorem size_instance_lt {f : FunctionSymbol} (free : f.theory = .free) {args : List Term} {arg : Term}
    (member : arg ∈ args) (m : Variable → Term) :
    (arg.instantiate m).shape.size < ((node f args).instantiate m).shape.size := by
  rw [instantiate_free free]
  exact size_lt_of_mem (List.mem_map_of_mem (f := fun arg => (arg.instantiate m).shape) member)

private theorem size_instance_le {t : Term} (free : t.IsFree) {v : Variable} (occurs : v ∈ t.vars)
    (m : Variable → Term) :
    (m v).shape.size ≤ (t.instantiate m).shape.size := by
  induction t with
  | var w =>
    simp only [vars, List.mem_singleton] at occurs
    rw [occurs, instantiate]
  | const c => simp [vars] at occurs
  | node f args ih =>
    obtain ⟨root, each⟩ := over_node.mp free
    obtain ⟨arg, member, inside⟩ := mem_varsList.mp occurs
    have below := ih arg member (each arg member) inside
    have smaller := size_instance_lt root member m
    omega

private theorem instance_ne_of_occurs {t : Term} (free : t.IsFree) {v : Variable} (occurs : v ∈ t.vars)
    (proper : t.shape ≠ (var v).shape)
    (m : Variable → Term) : (m v).shape ≠ (t.instantiate m).shape := by
  intro same
  cases t with
  | var w =>
    simp only [vars, List.mem_singleton] at occurs
    exact proper (occurs ▸ rfl)
  | const c => simp [vars] at occurs
  | node f args =>
    obtain ⟨root, each⟩ := over_node.mp free
    obtain ⟨arg, member, inside⟩ := mem_varsList.mp occurs
    have below := size_instance_le (each arg member) inside m
    rw [same] at below
    exact absurd (size_instance_lt root member m) (Nat.not_lt.mpr below)

end Term

namespace Demand

variable {s t : Term} {m : Variable → Term}

/-- Over free symbols, equal terms have met their demand. -/
theorem Arises.met {d : Demand} (arises : Arises s t d) (left : s.IsFree) (right : t.IsFree)
    (equal : (s.instantiate m).shape = (t.instantiate m).shape) : d.Met m := by
  cases arises with
  | nothing => trivial
  | binding sides =>
    rcases sides with ⟨rfl, rfl⟩ | ⟨rfl, rfl⟩
    · exact equal
    · exact equal.symm
  | @equations f g xs ys rootLeft rootRight same lengths =>
    subst rootLeft rootRight
    rw [Term.instantiate_free (Term.over_node.mp left).1, Term.instantiate_free (Term.over_node.mp right).1,
      Term.node.injEq] at equal
    refine (holds_zipWith_iff lengths m).mpr ?_
    rw [← List.forall₂_eq_eq_eq, List.forall₂_map_left_iff, List.forall₂_map_right_iff] at equal
    exact equal.2

private theorem exists_bind {v : Variable} {u : Term} (free : u.IsFree) (sorted : ∀ v, (m v).sort = v.sort)
    (proper : u.shape ≠ (Term.var v).shape) (equal : (m v).shape = (u.instantiate m).shape) :
    ∃ d, bind v u = .ok d := by
  have sorts : v.sort = u.sort := by
    rw [← sorted v, ← Term.sort_shape, equal, Term.sort_shape]
    exact Term.sort_instantiate sorted fun g member => by simp [free g member]
  have fresh : u.contains v = false := by
    rw [Bool.eq_false_iff]
    intro occurs
    exact Term.instance_ne_of_occurs free (by simpa [Term.contains] using occurs) proper m equal
  refine ⟨.binding v u, ?_⟩
  simp only [bind, sorts, fresh, bne_self_eq_false, Bool.false_eq_true, ↓reduceIte]

/-- Over free symbols, every failure excludes a common instance by terms of the right sorts. -/
theorem exists_between (left : s.IsFree) (right : t.IsFree) (sorted : ∀ v, (m v).sort = v.sort)
    (equal : (s.instantiate m).shape = (t.instantiate m).shape) : ∃ d, between s t = .ok d := by
  simp only [between]
  split
  · exact ⟨_, rfl⟩
  next different =>
    rw [Bool.not_eq_true, Term.beq_eq_false_iff_shape] at different
    split
    · exact exists_bind right sorted (Ne.symm different) equal
    · exact exists_bind left sorted different equal.symm
    · exact absurd equal different
    next f xs c =>
      rw [Term.instantiate_free (Term.over_node.mp left).1] at equal
      cases equal
    next c f xs =>
      rw [Term.instantiate_free (Term.over_node.mp right).1] at equal
      cases equal
    next f xs g ys =>
      rw [Term.instantiate_free (Term.over_node.mp left).1, Term.instantiate_free (Term.over_node.mp right).1,
        Term.node.injEq] at equal
      have lengths : xs.length = ys.length := by simpa using congrArg List.length equal.2
      rw [if_neg (by simp [equal.1]), if_neg (by simp [lengths])]
      exact ⟨_, rfl⟩

end Demand

end Equational
