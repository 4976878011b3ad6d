import Equational.Proofs.Congruence
import Equational.Proofs.Term.Position

/-! Putting related terms in each other's place. A replacement rebuilds the applications above it, which flattens
some and may collapse others. Above a related term in a canonical whole this changes nothing that a congruence
sees, so whatever is equal to a subterm may stand where the subterm stood. -/

namespace Equational.Term

private theorem forall₂_set {E : Term → Term → Prop} (refl : ∀ t, E t t) {args : List Term} {i : Nat}
    {arg child : Term}
    (found : args[i]? = some arg) (related : E arg child) : List.Forall₂ E args (args.set i child) := by
  have same (args : List Term) : List.Forall₂ E args args := List.forall₂_same.mpr fun t _ => refl t
  induction args generalizing i with
  | nil => cases found
  | cons first args ih =>
    cases i with
    | zero =>
      cases found
      exact .cons related (same args)
    | succ i => exact .cons (refl first) (ih found)

/-- Terms are related to what they become when a subterm is replaced by a related one. The whole must be
canonical, since the applications above the replacement are built anew. -/
theorem Congruence.replaceAt {E : Term → Term → Prop} (congruence : Congruence E) {t s u replacement : Term}
    {path : List Nat}
    (canonical : t.isCanonical = true) (found : t.subtermAt path = some s)
    (replaced : Term.replaceAt replacement path t = some u) (related : E s replacement) : E t u := by
  refine related_of_replaceAt (E := fun t u => t.isCanonical = true → E t u)
    (fun place kept canonical => ?_) found replaced
    (fun _ => related) canonical
  obtain ⟨reduced, each⟩ := isCanonical_node.mp canonical
  exact congruence.trans (congruence.of_shape (shape_app_of_isReduced reduced).symm)
    (congruence.app _ (forall₂_set congruence.refl place (kept (each _ (List.mem_of_getElem? place)))))

/-- A term equal to a subterm of a canonical term can be put in its place, and gives an equal term. -/
theorem exists_replaceAt_beq {t s replacement : Term} {path : List Nat} (canonical : t.isCanonical = true)
    (found : t.subtermAt path = some s) (same : (replacement == s) = true) :
    ∃ u, replaceAt replacement path t = some u ∧ (u == t) = true := by
  obtain ⟨u, replaced⟩ := exists_replaceAt_iff.mpr ⟨s, found⟩
  have kept : Same t u := congruence_same.replaceAt canonical found replaced (beq_iff_shape.mp same).symm
  exact ⟨u, replaced, beq_iff_shape.mpr kept.symm⟩

/-- The enumerated positions are the paths that lead to a subterm, and those at which a replacement
succeeds, whatever is put there. A walk with one path for all nodes lists them, as many as the term has
symbols and variables, each once and in lexicographic order. Putting an equal term in the place of a
subterm of a canonical term makes an equal term. -/
theorem positions_agree (t : Term) :
    (∀ path, (path ∈ t.positions ↔ (t.subtermAt path).isSome = true) ∧
      ∀ replacement, path ∈ t.positions ↔ (replaceAt replacement path t).isSome = true) ∧
    Walk.visit t {} = { listed := t.positions } ∧
    t.positions.Nodup ∧ t.positions.Pairwise (· < ·) ∧ t.positions.length = t.size ∧
    (t.isCanonical = true → ∀ path s replacement, t.subtermAt path = some s → (replacement == s) = true →
      ∃ u, replaceAt replacement path t = some u ∧ (u == t) = true) := by
  refine ⟨fun path => ?_, ?walked, ?nodup, pairwise_positions t, length_positions t, ?replaced⟩
  · have found : path ∈ t.positions ↔ ∃ s, t.subtermAt path = some s := mem_positions
    refine ⟨found.trans Option.isSome_iff_exists.symm, fun replacement => ?_⟩
    exact found.trans (exists_replaceAt_iff.symm.trans Option.isSome_iff_exists.symm)
  case walked => simp [Walk.visit_eq]
  case nodup => exact (pairwise_positions t).imp ne_of_lt
  case replaced => exact fun canonical path s replacement found same => exists_replaceAt_beq canonical found same

/-- A sum below a pair that does not collapse is replaced by the same sum, nested and in another order. -/
theorem positions_agree_nestedSum :
    let x : Variable := ⟨⟨0⟩, .default⟩
    let a : Term := .const ⟨⟨0⟩, .default⟩
    let b : Term := .const ⟨⟨1⟩, .default⟩
    let f : FunctionSymbol := ⟨⟨0⟩, 2, .associativeCommutative, .default, .default⟩
    let i : FunctionSymbol := ⟨⟨1⟩, 2, .idempotent, .default, .default⟩
    let t : Term := .node f [.node i [.node f [a, b, a], .var x], a]
    let replacement : Term := .node f [.node f [.node f [a], a], b]
    t.isCanonical = true ∧ t.subtermAt [0, 0] = some (.node f [a, b, a]) ∧ (replacement == .node f [a, b, a]) = true ∧
      ∃ u, replaceAt replacement [0, 0] t = some u ∧ (u == t) = true := by
  intro x a b f i t replacement
  have canonical : t.isCanonical = true := by decide
  have found : t.subtermAt [0, 0] = some (.node f [a, b, a]) := rfl
  have same : (replacement == .node f [a, b, a]) = true := by decide
  exact ⟨canonical, found, same, (positions_agree t).2.2.2.2.2 canonical [0, 0] _ replacement found same⟩

/-- In a pair that should have collapsed, putting the same argument in its place makes it collapse. -/
example :
    let a : Term := .const ⟨⟨0⟩, .default⟩
    let i : FunctionSymbol := ⟨⟨0⟩, 2, .idempotent, .default, .default⟩
    replaceAt a [1] (.node i [a, a]) = some a ∧ (a == .node i [a, a]) = false :=
  ⟨rfl, by decide⟩

end Equational.Term
