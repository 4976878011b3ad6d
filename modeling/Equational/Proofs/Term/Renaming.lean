import Equational.Proofs.Substitution
import Mathlib.Logic.Equiv.Basic

/-! Renaming variables. A term is renamed as it stands, without being rebuilt. A renaming that keeps
different variables different changes nothing that equality, building and applying look at, so all of
them commute with it. -/

namespace Equational

/-- Exchanging two variables of one sort keeps all sorts. -/
theorem Variable.sort_swap {v w : Variable} (same : w.sort = v.sort) (x : Variable) :
    (Equiv.swap v w x).sort = x.sort := by
  rw [Equiv.swap_apply_def]
  split
  next equal => rw [equal, same]
  next =>
    split
    next equal => rw [equal, same]
    next => rfl

namespace Term

mutual

/-- The term with its variables replaced by variables, as it stands. -/
def rename (κ : Variable → Variable) : Term → Term
  | var v => var (κ v)
  | const c => const c
  | node f args => node f (renameList κ args)

def renameList (κ : Variable → Variable) : List Term → List Term
  | [] => []
  | arg :: args => rename κ arg :: renameList κ args

end

variable {κ κ' : Variable → Variable} {f : FunctionSymbol} {s t : Term} {args : List Term}

private theorem renameList_eq_map (args : List Term) : renameList κ args = args.map (rename κ) := by
  induction args with
  | nil => rfl
  | cons arg args ih => rw [renameList, ih, List.map_cons]

@[simp] theorem rename_var (v : Variable) : (var v).rename κ = var (κ v) := rfl

@[simp] theorem rename_const (c : Constant) : (const c).rename κ = const c := rfl

@[simp] theorem rename_node : (node f args).rename κ = node f (args.map (rename κ)) := by
  rw [rename, renameList_eq_map]

theorem rename_congr (same : ∀ v ∈ t.vars, κ v = κ' v) : t.rename κ = t.rename κ' := by
  induction t with
  | var v => rw [rename_var, rename_var, same v (by simp [vars])]
  | const c => rfl
  | node f args ih =>
    rw [rename_node, rename_node]
    refine congrArg (node f) (List.map_inj_left.mpr fun arg member => ?_)
    exact ih arg member fun v occurs => same v (mem_varsList.mpr ⟨arg, member, occurs⟩)

@[simp] theorem rename_id (t : Term) : t.rename id = t := by
  induction t with
  | var v | const c => rfl
  | node f args ih => rw [rename_node, List.map_congr_left ih, List.map_id']

theorem rename_rename (t : Term) : (t.rename κ).rename κ' = t.rename (κ' ∘ κ) := by
  induction t with
  | var v | const c => rfl
  | node f args ih =>
    rw [rename_node, rename_node, rename_node, List.map_map]
    exact congrArg (node f) (List.map_inj_left.mpr ih)

theorem vars_rename (t : Term) : (t.rename κ).vars = t.vars.map κ := by
  induction t with
  | var v | const c => rfl
  | node f args ih =>
    rw [rename_node, vars, vars]
    induction args with
    | nil => rfl
    | cons arg args rest =>
      obtain ⟨first, later⟩ := List.forall_mem_cons.mp ih
      rw [List.map_cons, varsList, varsList, first, rest later, List.map_append]

theorem exists_of_isVariable (variable' : t.isVariable = true) : ∃ v, t = var v := by
  cases t <;> simp_all [isVariable]

@[simp] theorem isVariable_rename (t : Term) : (t.rename κ).isVariable = t.isVariable := by
  cases t <;> rfl

theorem sort_rename (sorted : ∀ v, (κ v).sort = v.sort) (t : Term) : (t.rename κ).sort = t.sort := by
  cases t with
  | var v => exact sorted v
  | const c | node f args => rfl

mutual

theorem comparedArgument_rename (f : FunctionSymbol) (t : Term) :
    comparedArgument f (t.rename κ) = (comparedArgument f t).map (rename κ) :=
  match t with
  | var v | const c => rfl
  | node g inner => by
    rw [rename_node, comparedArgument, comparedArgument, compared_rename f inner]
    split <;> simp
termination_by structural t

private theorem compared_rename (f : FunctionSymbol) (args : List Term) :
    compared f (args.map (rename κ)) = (compared f args).map (rename κ) :=
  match args with
  | [] => rfl
  | arg :: args => by
    rw [List.map_cons, compared, compared, comparedArgument_rename f arg, compared_rename f args, List.map_append]
termination_by structural args

end

private theorem take_map {anywhere : Bool} {test test' : Term → Bool} (same : ∀ t, test' (t.rename κ) = test t)
    (ys : List Term) :
    take anywhere test' (ys.map (rename κ)) = (take anywhere test ys).map (List.map (rename κ)) := by
  induction ys with
  | nil => rfl
  | cons y ys ih =>
    simp only [List.map_cons, take, same, ih]
    split
    · rfl
    · split
      · cases take anywhere test ys <;> rfl
      · rfl

mutual

private theorem eqv_rename (injective : Function.Injective κ) (s t : Term) :
    eqv (s.rename κ) (t.rename κ) = eqv s t :=
  match s with
  | var v => by
    cases t with
    | var w => simp [eqv, injective.eq_iff]
    | const c | node g ys => rfl
  | const c => by cases t <;> rfl
  | node f xs => by
    cases t with
    | var w | const c => rfl
    | node g ys =>
      rw [rename_node, rename_node, eqv, eqv, compared_rename, consume_rename injective f xs]
      cases consume f xs (compared g ys) <;> simp
termination_by structural s

theorem consume_rename (injective : Function.Injective κ) (f : FunctionSymbol) (xs ys : List Term) :
    consume f (xs.map (rename κ)) (ys.map (rename κ)) = (consume f xs ys).map (List.map (rename κ)) :=
  match xs with
  | [] => rfl
  | var v :: xs => by
    have whole : ∀ t, eqv (var (κ v)) (t.rename κ) = eqv (var v) t := eqv_rename injective (var v)
    rw [List.map_cons, rename_var, consume, consume, take_map whole ys]
    · cases take f.theory.isCommutative (eqv (var v)) ys with
      | none => rfl
      | some rest => exact consume_rename injective f xs rest
    · exact nofun
    · exact nofun
  | const c :: xs => by
    have whole : ∀ t, eqv (const c) (t.rename κ) = eqv (const c) t := eqv_rename injective (const c)
    rw [List.map_cons, rename_const, consume, consume, take_map whole ys]
    · cases take f.theory.isCommutative (eqv (const c)) ys with
      | none => rfl
      | some rest => exact consume_rename injective f xs rest
    · exact nofun
    · exact nofun
  | node g inner :: xs => by
    have whole : ∀ t, eqv (node g (inner.map (rename κ))) (t.rename κ) = eqv (node g inner) t := fun t => by
      rw [← rename_node]
      exact eqv_rename injective (node g inner) t
    rw [List.map_cons, rename_node, consume, consume, consume_rename injective f inner, take_map whole ys]
    split
    · cases consume f inner ys with
      | none => rfl
      | some rest => exact consume_rename injective f xs rest
    · cases take f.theory.isCommutative (eqv (node g inner)) ys with
      | none => rfl
      | some rest => exact consume_rename injective f xs rest
termination_by structural xs

end

private theorem spliced_rename (f : FunctionSymbol) (args : List Term) :
    spliced f (args.map (rename κ)) = (spliced f args).map (rename κ) := by
  fun_induction spliced f args with
  | case1 => rfl
  | case2 g inner args same ih => simp [spliced, same, ih]
  | case3 g inner args other ih => simp [spliced, other, ih]
  | case4 arg args leaf ih =>
    cases arg with
    | var v | const c => simp [spliced, ih]
    | node g inner => exact absurd rfl (leaf g inner)

section Injective

variable (injective : Function.Injective κ)
include injective

theorem beq_rename (s t : Term) : (s.rename κ == t.rename κ) = (s == t) :=
  eqv_rename injective s t

theorem contains_rename (t : Term) (v : Variable) : (t.rename κ).contains (κ v) = t.contains v := by
  rw [Bool.eq_iff_iff, contains, contains, List.contains_iff_mem, List.contains_iff_mem, vars_rename]
  exact List.mem_map_of_injective injective

private theorem app_rename (f : FunctionSymbol) (args : List Term) :
    app f (args.map (rename κ)) = (app f args).rename κ := by
  cases theory : f.theory with
  | free | commutative => simp [app, theory]
  | associative | associativeCommutative => simp [app, theory, spliced_rename]
  | idempotent =>
    by_cases pair : args.length = 2
    · obtain ⟨s, t, rfl⟩ := List.length_eq_two.mp pair
      simp only [List.map_cons, List.map_nil, app_pair theory, beq_rename injective]
      split
      · rfl
      · simp
    · rw [app_of_length_ne theory pair, app_of_length_ne theory (by rwa [List.length_map]), rename_node]

private theorem instantiate_rename {m m' : Variable → Term} (images : ∀ v ∈ t.vars, m' (κ' v) = (m v).rename κ) :
    (t.rename κ').instantiate m' = (t.instantiate m).rename κ := by
  induction t with
  | var v => exact images v (by simp [vars])
  | const c => rfl
  | node f args ih =>
    rw [rename_node, instantiate_node, instantiate_node, ← app_rename injective, List.map_map, List.map_map]
    refine congrArg (app f) (List.map_inj_left.mpr fun arg member => ?_)
    exact ih arg member fun v occurs => images v (mem_varsList.mpr ⟨arg, member, occurs⟩)

private theorem instantiate_eq_rename {m : Variable → Term} (canonical : t.isCanonical = true)
    (images : ∀ v ∈ t.vars, m v = var (κ v)) :
    t.instantiate m = t.rename κ := by
  have corresponding : (t.rename id).instantiate m = (t.instantiate var).rename κ :=
    instantiate_rename injective images
  rwa [rename_id, instantiate_var canonical] at corresponding

private theorem isCanonical_rename (canonical : t.isCanonical = true) : (t.rename κ).isCanonical = true := by
  rw [← instantiate_eq_rename injective canonical fun v _ => rfl]
  exact isCanonical_instantiate fun _ _ => rfl

end Injective

private theorem rename_instantiate (m : Variable → Term) (t : Term) :
    (t.rename κ).instantiate m = t.instantiate fun v => m (κ v) := by
  have corresponding : (t.rename κ).instantiate m = (t.instantiate fun v => m (κ v)).rename id :=
    instantiate_rename Function.injective_id fun v _ => (rename_id _).symm
  rwa [rename_id] at corresponding

end Term

namespace Substitution

variable {κ ρ : Variable → Variable} {σ σ' : Substitution} {t : Term}

/-- Substitutions that correspond, when the variables are renamed in one way and the values in another,
give corresponding terms. -/
theorem apply_rename (injective : Function.Injective ρ) (empty : σ'.isEmpty = σ.isEmpty)
    (images : ∀ v ∈ t.vars, σ'.image (κ v) = (σ.image v).rename ρ) :
    σ'.apply (t.rename κ) = (σ.apply t).rename ρ := by
  simp only [apply, empty]
  split
  next none =>
    refine Term.rename_congr fun v occurs => ?_
    have image := images v occurs
    rw [image_eq_var_of_isEmpty none, image_eq_var_of_isEmpty (empty.trans none), Term.rename_var,
      Term.var.injEq] at image
    exact image
  next =>
    rw [rebuild_eq_instantiate, rebuild_eq_instantiate]
    exact Term.instantiate_rename injective images

/-- Where variables are bound to variables one for one, applying the substitution is renaming. -/
theorem apply_eq_rename (injective : Function.Injective κ) (canonical : t.isCanonical = true)
    (images : ∀ v ∈ t.vars, σ.image v = .var (κ v)) : σ.apply t = t.rename κ := by
  rw [σ.apply_eq_instantiate canonical, Term.instantiate_eq_rename injective canonical images]

/-- Where the new names are given what the old ones are given, it makes no difference which a canonical term uses. -/
theorem apply_rename_eq (injective : Function.Injective κ) (canonical : t.isCanonical = true)
    (images : ∀ v ∈ t.vars, σ'.image (κ v) = σ.image v) : σ'.apply (t.rename κ) = σ.apply t := by
  rw [σ'.apply_eq_instantiate (Term.isCanonical_rename injective canonical), σ.apply_eq_instantiate canonical,
    Term.rename_instantiate, Term.instantiate_congr_on images]

/-- The substitution maps the variables to different variables. -/
structure IsRenamingOn (σ : Substitution) (vars : List Variable) : Prop where
  isVariable : ∀ v ∈ vars, (σ.image v).isVariable = true
  injective : ∀ v ∈ vars, ∀ w ∈ vars, σ.image v = σ.image w → v = w

private theorem IsRenamingOn.mono {vars vars' : List Variable} (renames : σ.IsRenamingOn vars)
    (fewer : vars' ⊆ vars) : σ.IsRenamingOn vars' :=
  ⟨fun v member => renames.isVariable v (fewer member),
    fun v member w member' => renames.injective v (fewer member) w (fewer member')⟩

/-- On the variables the substitution does what some permutation of all variables does. -/
theorem IsRenamingOn.exists_perm {vars : List Variable} (renames : σ.IsRenamingOn vars)
    (sorted : ∀ v ∈ vars, (σ.image v).sort = v.sort) :
    ∃ π : Equiv.Perm Variable, (∀ v, (π v).sort = v.sort) ∧ ∀ v ∈ vars, σ.image v = .var (π v) := by
  induction vars with
  | nil => exact ⟨Equiv.refl _, fun _ => rfl, List.forall_mem_nil _⟩
  | cons v vars ih =>
    obtain ⟨sort, sorts⟩ := List.forall_mem_cons.mp sorted
    obtain ⟨π, keeps, images⟩ := ih (renames.mono (List.subset_cons_self v vars)) sorts
    by_cases again : v ∈ vars
    · exact ⟨π, keeps, List.forall_mem_cons.mpr ⟨images v again, images⟩⟩
    obtain ⟨w, image⟩ := Term.exists_of_isVariable (renames.isVariable v List.mem_cons_self)
    have same : w.sort = (π v).sort := by rw [keeps, ← sort, image, Term.sort]
    refine ⟨π.trans (Equiv.swap (π v) w), fun x => ?_, List.forall_mem_cons.mpr ⟨?_, fun x member => ?_⟩⟩
    · rw [Equiv.trans_apply, Variable.sort_swap same, keeps]
    · rw [Equiv.trans_apply, Equiv.swap_apply_left, image]
    -- A variable that has its new name already keeps it, since the name differs from both that change places.
    · have different : v ≠ x := fun equal => again (equal ▸ member)
      have apart : π x ≠ w := fun equal => different <|
        renames.injective v List.mem_cons_self x (List.mem_cons_of_mem v member)
        (by rw [image, images x member, equal])
      rw [Equiv.trans_apply, Equiv.swap_apply_of_ne_of_ne (π.injective.ne different.symm) apart, images x member]

end Substitution

end Equational
