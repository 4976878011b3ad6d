import Equational.Proofs.Substitution
import Mathlib.Data.List.Dedup

/-! Substitutions form a monoid that acts on terms. A substitution is known by the images of the
variables once no variable is bound to itself, so a law of composition is a law of images: identity
bindings that a composition drops, and bindings that the first substitution shadows, leave no trace
there. -/

namespace Equational.Substitution

variable {σ τ θ ρ : Substitution} {v : Variable} {t : Term}

/-- No variable is bound to itself, and every bound term is canonical. -/
structure Normal (σ : Substitution) : Prop where
  proper : ∀ p ∈ σ.bindings, (p.2 == .var p.1) = false
  canonical : ∀ t ∈ σ.range, t.isCanonical = true

private theorem normal_empty : empty.Normal where
  proper := nofun
  canonical := nofun

/-- Equal substitutions have equal images. -/
theorem image_beq_of_beq (same : (σ == τ) = true) (v : Variable) : (σ.image v == τ.image v) = true := by
  obtain ⟨sizes, each⟩ := Bool.and_eq_true_iff.mp same
  have bound {w : Variable} {t : Term} (member : (w, t) ∈ σ.bindings) :
      ∃ u, (w, u) ∈ τ.bindings ∧ (t == u) = true := by
    have found := List.all_eq_true.mp each _ member
    cases value : τ.find? w with
    | none => simp [value] at found
    | some u => exact ⟨u, find?_eq_some_iff.mp value, by simpa [value] using found⟩
  have subset : σ.domain ⊆ τ.domain := by
    intro w member
    obtain ⟨t, inside⟩ := mem_domain_iff.mp member
    obtain ⟨u, inside', _⟩ := bound inside
    exact mem_domain_iff.mpr ⟨u, inside'⟩
  have lengths : τ.domain.length ≤ σ.domain.length := by
    simpa [domain, size] using Nat.le_of_eq (beq_iff_eq.mp sizes).symm
  have permuted := (List.subperm_of_subset σ.distinct subset).perm_of_length_le lengths
  rcases σ.image_mem_or v with inside | ⟨unbound, free⟩
  · obtain ⟨u, inside', equal⟩ := bound inside
    rwa [image_of_mem inside']
  · rw [free, image_of_not_mem fun member => unbound (permuted.mem_iff.mpr member)]
    exact BEq.rfl

private theorem Normal.mem_domain_iff (normal : σ.Normal) : v ∈ σ.domain ↔ (σ.image v == .var v) = false := by
  constructor
  · intro bound
    obtain ⟨t, member⟩ := Substitution.mem_domain_iff.mp bound
    rw [image_of_mem member]
    exact normal.proper _ member
  · intro moved
    by_contra unbound
    rw [image_of_not_mem unbound, BEq.rfl] at moved
    cases moved

private theorem Normal.beq_iff (first : σ.Normal) (second : τ.Normal) :
    (σ == τ) = true ↔ ∀ v, (σ.image v == τ.image v) = true := by
  refine ⟨image_beq_of_beq, ?_⟩
  intro images
  have domains (v : Variable) : v ∈ σ.domain ↔ v ∈ τ.domain := by
    have same : (σ.image v == .var v) = (τ.image v == .var v) := by
      rw [Bool.eq_iff_iff, Term.beq_iff_shape, Term.beq_iff_shape, Term.beq_iff_shape.mp (images v)]
    rw [first.mem_domain_iff, second.mem_domain_iff, same]
  have permuted : σ.domain.Perm τ.domain := (List.perm_ext_iff_of_nodup σ.distinct τ.distinct).mpr domains
  have sizes : σ.size = τ.size := by simpa [domain, size] using permuted.length_eq
  have bound : ∀ p ∈ σ.bindings, (τ.find? p.1).any (p.2 == ·) = true := by
    intro ⟨v, t⟩ member
    have inside : v ∈ τ.domain := (domains v).mp (List.mem_map_of_mem member)
    obtain ⟨u, member'⟩ := Substitution.mem_domain_iff.mp inside
    have equal := images v
    rw [image_of_mem member, image_of_mem member'] at equal
    rw [find?_eq_some_iff.mpr member']
    exact equal
  exact Bool.and_eq_true_iff.mpr ⟨beq_iff_eq.mpr sizes, List.all_eq_true.mpr bound⟩

private theorem Normal.compose (first : σ.Normal) (second : τ.Normal) : (σ.compose τ).Normal where
  proper := by
    intro ⟨v, t⟩ member
    rcases mem_bindings_compose.mp member with ⟨u, _, _, kept⟩ | ⟨inside, _⟩
    · exact kept
    · exact second.proper _ inside
  canonical := range_compose Term.hereditary_isCanonical.substitutive first.canonical second.canonical

private theorem Normal.shape_apply_compose (normal : σ.Normal) (τ : Substitution) (canonical : t.isCanonical = true) :
    ((σ.compose τ).apply t).shape = (τ.apply (σ.apply t)).shape :=
  have inner : (σ.apply t).isCanonical = true :=
    apply_hereditary Term.hereditary_isCanonical normal.canonical canonical
  calc ((σ.compose τ).apply t).shape
    _ = (t.instantiate (σ.compose τ).image).shape := shape_apply _ canonical
    _ = ((σ.apply t).instantiate τ.image).shape := instantiate_compose normal.canonical τ t
    _ = (τ.apply (σ.apply t)).shape := (shape_apply τ inner).symm

/-- However three substitutions are grouped, the images under their composition are the same. -/
theorem Normal.shape_image_compose_assoc (first : σ.Normal) (second : θ.Normal) (ρ : Substitution) (v : Variable) :
    (((σ.compose θ).compose ρ).image v).shape = ((σ.compose (θ.compose ρ)).image v).shape := by
  have start : (σ.image v).isCanonical = true := image_hereditary Term.hereditary_isCanonical first.canonical v
  calc (((σ.compose θ).compose ρ).image v).shape
    _ = (ρ.apply ((σ.compose θ).image v)).shape := shape_image_compose _ ρ v
    _ = (ρ.apply (θ.apply (σ.image v))).shape := shape_apply_congr (shape_image_compose σ θ v) ρ
    _ = ((θ.compose ρ).apply (σ.image v)).shape := (second.shape_apply_compose ρ start).symm
    _ = ((σ.compose (θ.compose ρ)).image v).shape := (shape_image_compose σ _ v).symm

private theorem Normal.compose_assoc (first : σ.Normal) (second : θ.Normal) (third : ρ.Normal) :
    ((σ.compose θ).compose ρ == σ.compose (θ.compose ρ)) = true := by
  refine (((first.compose second).compose third).beq_iff (first.compose (second.compose third))).mpr ?_
  intro v
  exact Term.beq_iff_shape.mpr (first.shape_image_compose_assoc second ρ v)

private theorem Normal.empty_compose (normal : σ.Normal) : (empty.compose σ == σ) = true := by
  refine ((normal_empty.compose normal).beq_iff normal).mpr ?_
  intro v
  rw [Term.beq_iff_shape, shape_image_compose, image_empty, apply_var]

private theorem Normal.compose_empty (normal : σ.Normal) : (σ.compose empty == σ) = true := by
  refine ((normal.compose normal_empty).beq_iff normal).mpr ?_
  intro v
  have unchanged : empty.apply (σ.image v) = σ.image v := rfl
  rw [Term.beq_iff_shape, shape_image_compose, unchanged]

/-- Composition makes the normal substitutions a monoid, and applying them is an action of that monoid on
the canonical terms. -/
theorem compose_monoid_action (first : σ.Normal) (second : θ.Normal) (third : ρ.Normal)
    (canonical : t.isCanonical = true) :
    ((σ.compose θ).apply t == θ.apply (σ.apply t)) = true ∧
      ((σ.compose θ).compose ρ == σ.compose (θ.compose ρ)) = true ∧
      (empty.compose σ == σ) = true ∧ (σ.compose empty == σ) = true ∧ (σ.compose θ).Normal := by
  have action : ((σ.compose θ).apply t == θ.apply (σ.apply t)) = true :=
    Term.beq_iff_shape.mpr (first.shape_apply_compose θ canonical)
  exact ⟨action, first.compose_assoc second third, first.empty_compose, first.compose_empty, first.compose second⟩

/-- An exchange of variables: composing drops the identity on `x`, so the two groupings bind `x` and `y` in
different order, and are still equal. -/
theorem compose_monoid_action_exchange :
    let x : Variable := ⟨⟨0⟩, .default⟩
    let y : Variable := ⟨⟨1⟩, .default⟩
    let a : Term := .const ⟨⟨0⟩, .default⟩
    let sum : Term := .node ⟨⟨0⟩, 2, .associativeCommutative, .default, .default⟩ [.var x, .var y]
    let σ := single x (.var y)
    let θ := single y (.var x)
    let ρ := single x a
    ((σ.compose θ).bindings = [(y, .var x)] ∧ ((σ.compose θ).compose ρ).bindings = [(y, a), (x, a)] ∧
      (σ.compose (θ.compose ρ)).bindings = [(x, a), (y, a)]) ∧
      ((σ.compose θ).apply sum == θ.apply (σ.apply sum)) = true ∧
      ((σ.compose θ).compose ρ == σ.compose (θ.compose ρ)) = true ∧
      (empty.compose σ == σ) = true ∧ (σ.compose empty == σ) = true ∧ (σ.compose θ).Normal := by
  intro x y a sum σ θ ρ
  have first : σ.Normal := ⟨by decide, by decide⟩
  have second : θ.Normal := ⟨by decide, by decide⟩
  have third : ρ.Normal := ⟨by decide, by decide⟩
  exact ⟨⟨rfl, rfl, rfl⟩, compose_monoid_action first second third (by decide : sum.isCanonical = true)⟩

end Equational.Substitution
