import Equational.Proofs.Matching
import Equational.Proofs.Term.Renaming
import Equational.Rewriting.Rule

/-! The names of a rule's variables. A rule is matched without being renamed apart, so its variables may
be those of the term. They only key the bindings: a renamed pattern takes the same branches and binds
the new names to the same subterms, and the right side comes out the same, whether or not a binding is
dropped because it binds a variable to itself. -/

namespace Equational

namespace Term

variable {κ : Variable → Variable}

def renameKeys (κ : Variable → Variable) (bindings : List (Variable × Term)) : List (Variable × Term) :=
  bindings.map (Prod.map κ id)

private theorem lookup_renameKeys (injective : Function.Injective κ) (bindings : List (Variable × Term))
    (v : Variable) :
    (renameKeys κ bindings).lookup (κ v) = bindings.lookup v := by
  induction bindings with
  | nil => rfl
  | cons p bindings ih =>
    rw [renameKeys, List.map_cons, Prod.map, List.lookup_cons, List.lookup_cons, ← renameKeys, ih]
    simp only [id, BEq.beq, injective.eq_iff]

mutual

private theorem matchInto_rename (injective : Function.Injective κ) (sorted : ∀ v, (κ v).sort = v.sort)
    (pattern t : Term) (bindings : List (Variable × Term)) :
    matchInto (pattern.rename κ) t (renameKeys κ bindings) = (matchInto pattern t bindings).map (renameKeys κ) :=
  match pattern with
  | var v => by
    simp only [rename_var, matchInto, sorted, lookup_renameKeys injective]
    split
    · rfl
    · split
      · split <;> rfl
      · simp [renameKeys]
  | const c => by
    cases t with
    | const d =>
      simp only [rename_const, matchInto]
      split <;> rfl
    | var w | node g args => rfl
  | node f patterns => by
    cases t with
    | var w | const c => rfl
    | node g args =>
      simp only [rename_node, matchInto, List.length_map, matchList_rename injective sorted patterns]
      split
      · rfl
      · split
        · cases matchList patterns args bindings <;> rfl
        · rfl
termination_by structural pattern

theorem matchList_rename (injective : Function.Injective κ) (sorted : ∀ v, (κ v).sort = v.sort)
    (patterns ts : List Term) (bindings : List (Variable × Term)) :
    matchList (patterns.map (rename κ)) ts (renameKeys κ bindings) = (matchList patterns ts bindings).map
      (renameKeys κ) :=
  match patterns with
  | [] => rfl
  | pattern :: patterns => by
    cases ts with
    | nil => rfl
    | cons t ts =>
      rw [List.map_cons, matchList, matchList, matchInto_rename injective sorted pattern t bindings]
      cases matchInto pattern t bindings with
      | none => rfl
      | some extended => exact matchList_rename injective sorted patterns ts extended
termination_by structural patterns

end

section Match

variable (injective : Function.Injective κ) (sorted : ∀ v, (κ v).sort = v.sort)
include injective sorted

/-- The two patterns match the same terms, and the images of the new names are those of the old ones. -/
theorem match?_rename (pattern t : Term) :
    Option.Rel (fun σ σ' => ∀ v ∈ pattern.vars, σ'.image (κ v) = σ.image v) (pattern.match? t)
      ((pattern.rename κ).match? t) := by
  have run : matchInto (pattern.rename κ) t [] = (matchInto pattern t []).map (renameKeys κ) :=
    matchInto_rename injective sorted pattern t []
  cases matched : matchInto pattern t [] with
  | none =>
    rw [matched] at run
    have fails : pattern.match? t = none := by rw [match?, matched]; rfl
    have fails' : (pattern.rename κ).match? t = none := by rw [match?, run]; rfl
    rw [fails, fails']
    exact .none
  | some bindings =>
    rw [matched] at run
    obtain ⟨σ, found, images⟩ := exists_match? matched
    obtain ⟨σ', found', images'⟩ := exists_match? run
    rw [found, found']
    refine .some fun v occurs => ?_
    obtain ⟨p, member, rfl⟩ := List.mem_map.mp ((matchInto_extends pattern matched).bound v occurs)
    have renamed : Prod.map κ id p ∈ renameKeys κ bindings := List.mem_map_of_mem member
    exact (images' _ renamed).trans (images p member).symm

end Match

end Term

namespace RewriteRule

variable {κ : Variable → Variable} {lhs rhs : Term} {rule : RewriteRule}

/-- Rules are made of sides of one sort whose right one brings in no variable. -/
theorem ofSides_eq_ok_iff : ofSides lhs rhs = .ok rule ↔ lhs.sort = rhs.sort ∧ rhs.vars ⊆ lhs.vars ∧
    rule = ⟨lhs, rhs⟩ := by
  have bound : rhs.vars.find? (!lhs.contains ·) = none ↔ rhs.vars ⊆ lhs.vars := by
    simp [List.find?_eq_none, Term.contains, List.subset_def]
  simp only [ofSides, bne_iff_ne, ne_eq, ite_not, ← bound]
  split
  next same =>
    cases rhs.vars.find? (!lhs.contains ·) with
    | some v => simp
    | none => simp [same, eq_comm]
  next different => simp [different]

/-- The rule with its variables replaced by variables, as it stands. -/
def rename (κ : Variable → Variable) (rule : RewriteRule) : RewriteRule :=
  ⟨rule.lhs.rename κ, rule.rhs.rename κ⟩

@[simp] theorem rename_lhs (rule : RewriteRule) : (rule.rename κ).lhs = rule.lhs.rename κ := rfl

@[simp] theorem rename_rhs (rule : RewriteRule) : (rule.rename κ).rhs = rule.rhs.rename κ := rfl

private theorem ofSides_rename (sorted : ∀ v, (κ v).sort = v.sort) (made : ofSides lhs rhs = .ok rule) :
    ofSides (lhs.rename κ) (rhs.rename κ) = .ok (rule.rename κ) := by
  obtain ⟨same, within, rfl⟩ := ofSides_eq_ok_iff.mp made
  refine ofSides_eq_ok_iff.mpr ⟨?_, ?_, rfl⟩
  · rw [Term.sort_rename sorted, Term.sort_rename sorted, same]
  · rw [Term.vars_rename, Term.vars_rename]
    exact List.map_subset κ within

section Renamed

variable (injective : Function.Injective κ) (sorted : ∀ v, (κ v).sort = v.sort)
  (within : rule.rhs.vars ⊆ rule.lhs.vars) (right : rule.rhs.isCanonical = true)
include injective sorted within right

private theorem rewriteAt?_rename (t : Term) (path : List Nat) :
    (rule.rename κ).rewriteAt? t path = rule.rewriteAt? t path := by
  simp only [rewriteAt?, rename_lhs, rename_rhs, Option.bind_eq_bind]
  refine Option.bind_congr fun s _ => ?_
  have related := Term.match?_rename injective sorted rule.lhs s
  generalize rule.lhs.match? s = matched, (rule.lhs.rename κ).match? s = matched' at related ⊢
  cases related with
  | none => rfl
  | some images =>
    rw [Option.bind_some, Option.bind_some, Substitution.apply_rename_eq injective right fun v occurs =>
      images v (within occurs)]

private theorem rewrite?_rename (t : Term) : (rule.rename κ).rewrite? t = rule.rewrite? t :=
  congrArg t.positions.findSome? (funext (rewriteAt?_rename injective sorted within right t))

end Renamed

/-- A rule whose variables are renamed rewrites every term as before, whichever variables the term
shares with either. -/
theorem rewrite?_of_renaming {ρ : Substitution} (made : ofSides lhs rhs = .ok rule) (left : lhs.isCanonical = true)
    (right : rhs.isCanonical = true) (renames : ρ.IsRenamingOn lhs.vars)
    (sorted : ∀ v ∈ lhs.vars, (ρ.image v).sort = v.sort) :
    ∃ renamed, ofSides (ρ.apply lhs) (ρ.apply rhs) = .ok renamed ∧ ∀ t, renamed.rewrite? t = rule.rewrite? t := by
  obtain ⟨π, keeps, images⟩ := renames.exists_perm sorted
  obtain ⟨_, within, rfl⟩ := ofSides_eq_ok_iff.mp made
  rw [Substitution.apply_eq_rename π.injective left images,
    Substitution.apply_eq_rename π.injective right fun v occurs => images v (within occurs)]
  exact ⟨_, ofSides_rename keeps made, rewrite?_rename π.injective keeps within right⟩

/-- Renamed onto variables of the term, the left side matches with every variable bound to itself, so
nothing is stored and the right side is put in place as it stands. Before, `x` is bound to `y`, and `y`
to `z`. In both cases the first order of the pair fails. -/
theorem rewrite?_of_renaming_shared :
    let x : Variable := ⟨⟨0⟩, .default⟩
    let y : Variable := ⟨⟨1⟩, .default⟩
    let z : Variable := ⟨⟨2⟩, .default⟩
    let pair : FunctionSymbol := ⟨⟨0⟩, 2, .commutative, .default, .default⟩
    let h : FunctionSymbol := ⟨⟨1⟩, 2, .free, .default, .default⟩
    let sum : FunctionSymbol := ⟨⟨2⟩, 2, .associativeCommutative, .default, .default⟩
    let lhs : Term := .node pair [.var x, .node h [.var y, .var x]]
    let rhs : Term := .node sum [.var x, .node h [.var x, .var y], .var x]
    let ρ : Substitution := ⟨[(x, .var y), (y, .var z)], by decide⟩
    let t : Term := .node pair [.node h [.var z, .var y], .var y]
    let u : Term := .node sum [.var y, .node h [.var y, .var z], .var y]
    ofSides lhs rhs = .ok ⟨lhs, rhs⟩ ∧ lhs.isCanonical = true ∧ rhs.isCanonical = true ∧ ρ.IsRenamingOn lhs.vars ∧
      (∀ v ∈ lhs.vars, (ρ.image v).sort = v.sort) ∧ (ρ.apply lhs).match? t = some .empty ∧
      RewriteRule.rewrite? ⟨lhs, rhs⟩ t = some u ∧
      ∃ renamed, ofSides (ρ.apply lhs) (ρ.apply rhs) = .ok renamed ∧
        ∀ t, renamed.rewrite? t = RewriteRule.rewrite? ⟨lhs, rhs⟩ t := by
  intro x y z pair h sum lhs rhs ρ t u
  have made : ofSides lhs rhs = .ok ⟨lhs, rhs⟩ := rfl
  have left : lhs.isCanonical = true := by decide
  have right : rhs.isCanonical = true := by decide
  have apart : ∀ v ∈ lhs.vars, ∀ w ∈ lhs.vars, (ρ.image v).vars = (ρ.image w).vars → v = w := by decide
  have renames : ρ.IsRenamingOn lhs.vars :=
    ⟨by decide, fun v member w member' same => apart v member w member' (congrArg Term.vars same)⟩
  have sorted : ∀ v ∈ lhs.vars, (ρ.image v).sort = v.sort := by decide
  exact ⟨made, left, right, renames, sorted, rfl, rfl, rewrite?_of_renaming made left right renames sorted⟩

end RewriteRule

end Equational
