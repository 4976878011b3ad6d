import Equational.Proofs.Application
import Equational.Proofs.Congruence
import Equational.Proofs.Rewriting.Interpretation
import Equational.Proofs.Rewriting.Renaming
import Equational.Theory.Idempotence

/-! Idempotence twice over. By rewriting, the outermost pair of equal arguments collapses first, and the
terms compared are as they were written; by construction, the innermost pair collapses first, and
whatever is compared has collapsed already. The two meet, because a collapse anywhere does not change
what the term is built up to, and because a term without a pair is built up to itself. -/

namespace Equational

namespace FunctionSymbol

/-- The symbol as it is when pairs under it collapse by construction. -/
def collapsing (j : FunctionSymbol) : FunctionSymbol :=
  { j with theory := .idempotent }

/-- Puts the collapsing symbol in place of `j`, and leaves the other symbols. -/
def retag (j f : FunctionSymbol) : FunctionSymbol :=
  if f = j then j.collapsing else f

def untag (j f : FunctionSymbol) : FunctionSymbol :=
  if f = j.collapsing then j else f

variable {j f : FunctionSymbol}

private theorem untag_retag (kept : f.theory ≠ .idempotent) : j.untag (j.retag f) = f := by
  by_cases same : f = j
  · rw [retag, if_pos same, untag, if_pos rfl, same]
  · have other : f ≠ j.collapsing := fun tagged => kept (congrArg theory tagged)
    rw [retag, if_neg same, untag, if_neg other]

private theorem retag_of_laws (free : j.theory = .free) (laws : f.theory ≠ .free) : j.retag f = f :=
  if_neg fun (same : f = j) => laws (same ▸ free)

private theorem isAssociative_retag (free : f.theory = .free) : (j.retag f).theory.isAssociative = false ∧
    (j.retag f).theory.isCommutative = false := by
  by_cases same : f = j
  · rw [retag, if_pos same]
    exact ⟨rfl, rfl⟩
  · rw [retag, if_neg same, free]
    exact ⟨rfl, rfl⟩

end FunctionSymbol

namespace Term

variable {j : FunctionSymbol} {s t u : Term} {path : List Nat}

/-- Other symbols are written in place of those of a term. -/
def writing (κ : FunctionSymbol → FunctionSymbol) : Interpretation Term where
  ofVariable := .var
  ofConstant := .const
  ofFunction f args := .node (κ f) args

/-- The term is built up anew from its leaves, of other symbols. -/
def building (κ : FunctionSymbol → FunctionSymbol) : Interpretation Term where
  ofVariable := .var
  ofConstant := .const
  ofFunction f args := .app (κ f) args

def retagged (j : FunctionSymbol) (t : Term) : Term :=
  (writing j.retag).value t

def collapsed (j : FunctionSymbol) (t : Term) : Term :=
  (building j.retag).value t

@[simp] theorem retagged_node (f : FunctionSymbol) (args : List Term) :
    (node f args).retagged j = node (j.retag f) (args.map (retagged j)) :=
  Interpretation.value_node ..

@[simp] theorem collapsed_node (f : FunctionSymbol) (args : List Term) :
    (node f args).collapsed j = app (j.retag f) (args.map (collapsed j)) :=
  Interpretation.value_node ..

section Tags

private theorem writing_untag (free : t.IsFree) : (writing j.untag).value (t.retagged j) = t := by
  induction t with
  | var v | const c => rfl
  | node f args ih =>
    obtain ⟨root, each⟩ := over_node.mp free
    have kept : f.theory ≠ .idempotent := by simp [root]
    have back : (args.map (retagged j)).map (writing j.untag).value = args := by
      rw [List.map_map]
      exact (List.map_congr_left fun arg member => ih arg member (each arg member)).trans (List.map_id' args)
    rw [retagged_node, Interpretation.value_node, back]
    exact congrArg (node · args) (FunctionSymbol.untag_retag kept)

private theorem shape_eq_self (plain : t.Over fun f => f.theory.isAssociative = false ∧
      f.theory.isCommutative = false) : t.shape = t := by
  induction t with
  | var v | const c => rfl
  | node f args ih =>
    obtain ⟨⟨flat, ordered⟩, each⟩ := over_node.mp plain
    have inside : args.map shape = args := by
      rw [List.map_congr_left fun arg member => ih arg member (each arg member), List.map_id']
    rw [shape, shapes_of_not_associative flat, inside, arrange, if_neg (by simp [ordered])]

private theorem shape_retagged (free : t.IsFree) : (t.retagged j).shape = t.retagged j := by
  refine shape_eq_self ?_
  induction t with
  | var v | const c => exact (hereditary_over _).var ⟨⟨0⟩, .default⟩
  | node f args ih =>
    obtain ⟨root, each⟩ := over_node.mp free
    rw [retagged_node]
    refine over_node.mpr ⟨FunctionSymbol.isAssociative_retag root, List.forall_mem_map.mpr ?_⟩
    exact fun arg member => ih arg member (each arg member)

private theorem eq_of_retagged_beq (left : s.IsFree) (right : t.IsFree)
    (same : (s.retagged j == t.retagged j) = true) : s = t := by
  have shapes := beq_iff_shape.mp same
  rw [shape_retagged left, shape_retagged right] at shapes
  rw [← writing_untag (j := j) left, shapes, writing_untag right]

end Tags

section Classes

/-- What a term is built up to, up to equality. -/
noncomputable def classes (j : FunctionSymbol) : Interpretation Term where
  ofVariable := .var
  ofConstant := .const
  ofFunction f args := (app (j.retag f) args).shape

private theorem value_classes (j : FunctionSymbol) (t : Term) : (classes j).value t = (t.collapsed j).shape := by
  induction t with
  | var v | const c => rfl
  | node f args ih =>
    rw [Interpretation.value_node, collapsed_node]
    refine app_map_congr fun arg member => ?_
    rw [ih arg member, shape_shape]

private theorem lawful_classes (free : j.theory = .free) : (classes j).Lawful where
  absorb {f} associative xs ys zs := by
    obtain ⟨laws, kept⟩ := SymbolTheory.ne_of_isAssociative associative
    have same : Aligned f (parts f (app f ys).shape) (shapes f ys) := by
      have whole : (app f ys).shape.shape = (node f ys).shape := by rw [shape_shape, shape_app kept]
      exact (parts_congr whole).trans (.of_eq (parts_of_absorbed associative ys))
    simp only [classes, FunctionSymbol.retag_of_laws free laws, shape_app kept]
    refine shape_node_eq_iff.mpr ⟨rfl, ?_⟩
    rw [shape_app kept] at same
    rw [shapes_append, shapes_cons, shapes_append, shapes_append, List.append_assoc]
    exact (Aligned.refl f _).append (same.append (.refl f _))
  permute {f} commutative xs ys order := by
    have laws := (SymbolTheory.ne_of_isCommutative commutative).1
    simp only [classes, FunctionSymbol.retag_of_laws free laws]
    exact app_aligned (.of_perm commutative order)

private theorem respects_classes (free : j.theory = .free) : (classes j).Respects Same where
  argument f a b same xs ys := by
    have each : List.Forall₂ (fun x y => x.shape = y.shape) (xs ++ a :: ys) (xs ++ b :: ys) :=
      List.rel_append (List.forall₂_refl xs) (.cons same (List.forall₂_refl ys))
    exact congrArg shape (app_congr each)
  collapse {f} idempotent a b same := by
    have laws : f.theory ≠ .free := by simp [idempotent]
    have pair : (app f [b, b]).shape = b.shape := by rw [app_pair idempotent, if_pos BEq.rfl]
    simpa only [classes, FunctionSymbol.retag_of_laws free laws, Same, shape_shape, pair] using same

end Classes

def counting (j : FunctionSymbol) : Interpretation Nat :=
  .linear (fun f => if f = j then 1 else 0) fun _ => 1

private theorem lawful_counting (free : j.theory = .free) : (counting j).Lawful :=
  Interpretation.lawful_linear fun f laws => ⟨if_neg fun (same : f = j) => laws (same ▸ free), rfl⟩

/-- Only free symbols are applied, and only to arguments of their domain. -/
structure IsTyped (t : Term) : Prop where
  free : t.IsFree
  sorted : t.isWellSorted = true

private theorem IsTyped.argument {f : FunctionSymbol} {args : List Term} (typed : (node f args).IsTyped) :
    ∀ arg ∈ args, arg.IsTyped :=
  fun arg member => ⟨(over_node.mp typed.free).2 arg member, (isWellSorted_node.mp typed.sorted).2 arg member⟩

private theorem IsTyped.replaceAt {replacement : Term} (typed : t.IsTyped) (new : replacement.IsTyped)
    (found : t.subtermAt path = some s) (sort : replacement.sort = s.sort)
    (replaced : replaceAt replacement path t = some u) :
    u.IsTyped ∧ u.sort = t.sort := by
  refine related_of_replaceAt (E := fun t u => t.IsTyped → u.IsTyped ∧ u.sort = t.sort) ?_ found replaced
    (fun _ => ⟨new, sort⟩) typed
  intro f args i arg child place kept typed
  obtain ⟨child', same⟩ := kept (typed.argument arg (List.mem_of_getElem? place))
  have sorts := (isWellSorted_node.mp typed.sorted).1
  have root := (over_node.mp typed.free).1
  have each : ∀ other ∈ args.set i child, other.IsTyped ∧ other.sort = f.domain := by
    intro other member
    rcases List.mem_or_eq_of_mem_set member with old | rfl
    · exact ⟨typed.argument other old, sorts other old⟩
    · exact ⟨child', same.trans (sorts arg (List.mem_of_getElem? place))⟩
  rw [app_of_free root]
  refine ⟨⟨over_node.mpr ⟨root, fun other member => (each other member).1.free⟩, isWellSorted_node.mpr ⟨?_, ?_⟩⟩, rfl⟩
  · exact fun other member => (each other member).2
  · exact fun other member => (each other member).1.sorted

/-- Nowhere in the term is a pair of equal arguments under `j`. -/
def IsPairless (j : FunctionSymbol) (t : Term) : Prop :=
  ∀ path s u, t.subtermAt path = some (node j [s, u]) → (s == u) = false

private theorem IsPairless.argument {f : FunctionSymbol} {args : List Term} (pairless : (node f args).IsPairless j) :
    ∀ arg ∈ args, arg.IsPairless j := by
  intro arg member path s u found
  obtain ⟨i, place⟩ := List.mem_iff_getElem?.mp member
  refine pairless (i :: path) s u ?_
  rw [subtermAt, arguments, place]
  exact found

private theorem IsPairless.shape_collapsed (pairless : t.IsPairless j) (free : t.IsFree) :
    (t.collapsed j).shape = (t.retagged j).shape := by
  induction t with
  | var v | const c => rfl
  | node f args ih =>
    obtain ⟨root, each⟩ := over_node.mp free
    have reduced : isReduced (j.retag f) (args.map (retagged j)) = true := by
      refine isReduced_iff.mpr ⟨by simp [FunctionSymbol.isAssociative_retag root], fun tagged => ?_⟩
      by_cases same : f = j
      · subst same
        match args with
        | [s, u] =>
          have different := pairless [] s u rfl
          obtain ⟨left, rest⟩ := List.forall_mem_cons.mp each
          refine Bool.eq_false_iff.mpr fun equal => ?_
          rw [eq_of_retagged_beq left (rest u (by simp)) equal, BEq.rfl] at different
          cases different
        | [] | [_] | _ :: _ :: _ :: _ => rfl
      · rw [FunctionSymbol.retag, if_neg same, root] at tagged
        cases tagged
    rw [collapsed_node, retagged_node, ← app_of_isReduced reduced]
    exact app_map_congr fun arg member => ih arg member (pairless.argument arg member) (each arg member)

end Term

namespace RewriteRule

variable {j : FunctionSymbol} {x : Variable} {s t u : Term} {path : List Nat}

def collapse (j : FunctionSymbol) (x : Variable) : RewriteRule :=
  ⟨.node j [.var x, .var x], .var x⟩

private theorem idempotenceRule_eq (binary : j.arity = 2) (free : j.theory = .free) (sorts : j.domain = j.range)
    (interner : Interner) :
    (idempotenceRule j interner).1 = .ok (collapse j (interner.addVariable "x" j.domain).1) := by
  let x := (interner.addVariable "x" j.domain).1
  have built : Term.checked j [.var x, .var x] = .ok (.node j [.var x, .var x]) :=
    Term.checked_eq_ok_iff.mpr
      ⟨by simp [binary], by simp [Term.sort, x, Interner.addVariable], Term.app_of_free free _⟩
  have made : ofSides (.node j [.var x, .var x]) (.var x) = .ok (collapse j x) :=
    ofSides_eq_ok_iff.mpr ⟨sorts.symm, by simp [Term.vars, Term.varsList], rfl⟩
  simp only [idempotenceRule, binary, free, bne_self_eq_false, Bool.false_eq_true, if_false, reduceCtorEq, beq_iff_eq]
  change (Term.checked j [.var x, .var x] >>= fun lhs => ofSides lhs (.var x)) = _
  rw [built]
  exact made

private theorem relates_counting (j : FunctionSymbol) (x : Variable) :
    (collapse j x).Relates (Term.counting j) (· > ·) where
  kept := (Term.hereditary_over _).var x
  sides m := by
    simp only [collapse, Term.counting, Interpretation.value_node, Interpretation.value_var, List.map_cons,
      List.map_nil, Interpretation.linear, Interpretation.assign_ofFunction, Interpretation.assign_ofVariable, if_pos,
      List.sum_cons, List.sum_nil]
    omega

private theorem relates_classes (j : FunctionSymbol) (x : Variable) :
    (collapse j x).Relates (Term.classes j) Term.Same where
  kept := (Term.hereditary_over _).var x
  sides m := by
    have pair (a : Term) : Term.app (j.retag j) [a, a] = a := by
      rw [FunctionSymbol.retag, if_pos rfl, Term.app_pair rfl, if_pos BEq.rfl]
    simp [collapse, Term.classes, Term.Same, pair, Term.shape_shape]

private theorem matchesAt_collapse (sorted : s.sort = x.sort) (found : t.subtermAt path = some (.node j [s, u]))
    (free : j.theory = .free)
    (same : (s == u) = true) (sorted' : u.sort = x.sort) : (collapse j x).MatchesAt t path := by
  have matched : Term.matchInto (collapse j x).lhs (.node j [s, u]) [] = some [(x, s)] := by
    simp [collapse, Term.matchInto, Term.matchList, free, sorted, sorted', same]
  obtain ⟨σ, found', _⟩ := Term.exists_match? matched
  exact ⟨_, σ, found, found'⟩

private theorem isTyped_of_collapse (typed : t.IsTyped) (sorts : x.sort = j.range)
    (rewrites : (collapse j x).RewritesAt t path u) : u.IsTyped := by
  obtain ⟨s, σ, found, matched, replaced⟩ := rewrites
  obtain ⟨below, reached⟩ := Term.exists_subterm_of_match? matched x (by simp [collapse, Term.vars, Term.varsList])
  have whole := Term.of_subtermAt Term.IsTyped.argument found typed
  have part := Term.of_subtermAt Term.IsTyped.argument reached whole
  have sort : (σ.image x).sort = s.sort := by
    rw [(Term.sortPreserving_of_match? matched).image, sorts]
    cases Term.matches_of_match? matched with
    | node => rfl
  rw [collapse, Substitution.apply_var] at replaced
  exact (typed.replaceAt part found sort replaced).1

end RewriteRule

namespace RewriteSystem

open RewriteRule

variable {j : FunctionSymbol} {x : Variable} {t n : Term} {k : Nat}

private theorem rules_ofList_singleton (rule : RewriteRule) : (ofList [rule]).rules = [rule] := rfl

private theorem Steps.isTyped (steps : (ofList [collapse j x]).Steps k t n) (sorts : x.sort = j.range)
    (typed : t.IsTyped) : n.IsTyped := by
  induction steps with
  | refl t => exact typed
  | head step _ ih =>
    obtain ⟨rule, member, path, rewrites⟩ := step.reduces
    obtain rfl := List.mem_singleton.mp (rules_ofList_singleton _ ▸ member)
    exact ih (isTyped_of_collapse typed sorts rewrites)

private theorem Irreducible.isPairless (irreducible : (ofList [collapse j x]).Irreducible n) (free : j.theory = .free)
    (sorts : x.sort = j.domain) (typed : n.IsTyped) : n.IsPairless j := by
  intro path s u found
  refine Bool.eq_false_iff.mpr fun same => ?_
  have pair := Term.of_subtermAt Term.IsTyped.argument found typed
  have sorted := (Term.isWellSorted_node.mp pair.sorted).1
  refine irreducible (collapse j x) (by simp [rules_ofList_singleton]) path ?_
  exact matchesAt_collapse ((sorted s (by simp)).trans sorts.symm) found free same
    ((sorted u (by simp)).trans sorts.symm)

/-- There are no more collapses than applications of `j`. -/
theorem exists_steps_collapse (free : j.theory = .free) (x : Variable) (t : Term) :
    ∃ k ≤ (Term.counting j).value t, ∃ n, (ofList [collapse j x]).Steps k t n ∧
    (ofList [collapse j x]).Irreducible n := by
  have relates : ∀ rule ∈ (ofList [collapse j x]).rules, rule.Relates (Term.counting j) (· > ·) := by
    simpa [rules_ofList_singleton] using relates_counting j x
  exact exists_steps_within (fun reduces =>
    reduces.related (R := (· > ·)) (Term.lawful_counting free)
      (Interpretation.respects_linear fun _ => Nat.one_pos) relates) t

/-- A free binary symbol whose arguments have the sort of its applications is idempotent by its rule as
it is by construction. Rewriting a typed term by the rule comes to an end, at a term without a pair
under the symbol, and what it ends at is, with the symbol tagged, what the term is built up to with the
symbol tagged. -/
theorem normalize_idempotence (binary : j.arity = 2) (free : j.theory = .free) (sorts : j.domain = j.range)
    (interner : Interner) :
    ∃ rule, (idempotenceRule j interner).1 = .ok rule ∧ ∀ t : Term, t.IsTyped → ∃ n,
      (ofList [rule]).normalize none t = some (.ok n) ∧ n.IsPairless j ∧ (n.retagged j == t.collapsed j) = true := by
  refine ⟨_, idempotenceRule_eq binary free sorts interner, fun t typed => ?_⟩
  let x := (interner.addVariable "x" j.domain).1
  have sort : x.sort = j.domain := rfl
  obtain ⟨k, _, n, steps, irreducible⟩ := exists_steps_collapse free x t
  have typed' : n.IsTyped := steps.isTyped (sort.trans sorts) typed
  have pairless := irreducible.isPairless free sort typed'
  have built : (t.collapsed j).shape = (n.collapsed j).shape := by
    have related := steps.related (Term.lawful_classes free) (Term.respects_classes free)
      (by simpa [rules_ofList_singleton] using relates_classes j x) (fun _ => rfl) Eq.trans
    simpa only [Term.value_classes, Term.Same, Term.shape_shape] using related
  refine ⟨n, normalize_none_eq_ok_iff.mpr ⟨k, steps, irreducible⟩, pairless, Term.beq_iff_shape.mpr ?_⟩
  rw [built, pairless.shape_collapsed typed'.free]

/-- Under the outer pair are two terms that differ until the pair inside one of them collapses, and a
variable is called as that of the rule is. -/
theorem normalize_idempotence_nested :
    let j : FunctionSymbol := ⟨⟨0⟩, 2, .free, .default, .default⟩
    let h : FunctionSymbol := ⟨⟨1⟩, 1, .free, .default, .default⟩
    let x : Term := .var ⟨⟨0⟩, .default⟩
    let t : Term := .node j [.node h [.node j [x, x]], .node h [x]]
    j.arity = 2 ∧ j.theory = .free ∧ j.domain = j.range ∧ t.IsTyped ∧ t.collapsed j = .node h [x] ∧
      ∃ rule, (idempotenceRule j .empty).1 = .ok rule ∧ ∃ n, (ofList [rule]).normalize none t = some (.ok n) ∧
      n.IsPairless j ∧
        (n.retagged j == .node h [x]) = true := by
  intro j h x t
  have typed : t.IsTyped := ⟨by simp [t, j, h, x, Term.IsFree, Term.Over, Term.symbols, Term.symbolsList], by decide⟩
  have built : t.collapsed j = .node h [x] := rfl
  obtain ⟨rule, made, normalizes⟩ := normalize_idempotence (j := j) rfl rfl rfl .empty
  obtain ⟨n, normal, pairless, same⟩ := normalizes t typed
  exact ⟨rfl, rfl, rfl, typed, built, rule, made, n, normal, pairless, built ▸ same⟩

end RewriteSystem

end Equational
