import Equational.Proofs.Unification.MostGeneral

/-! Answers in good shape. A resolved substitution binds variables of one kind, and over its bound
terms occur only variables of another kind, none of which it binds. Composition and restriction
keep substitutions resolved, so the answers of a search need not be checked. -/

namespace Equational

/-- Listed, or drawn while the number of names in use grew from the first to the last. -/
abbrev Available (vars : List Variable) (first last : Nat) (v : Variable) : Prop :=
  v ∈ vars ∨ first ≤ v.id.index ∧ v.id.index < last

theorem Available.mono {vars : List Variable} {first last last' : Nat} {v : Variable}
    (available : Available vars first last v) (grown : last ≤ last') : Available vars first last' v :=
  available.imp id fun drawn => ⟨drawn.1, Nat.lt_of_lt_of_le drawn.2 grown⟩

namespace Substitution

variable {σ τ : Substitution} {scope scope' known known' : Variable → Prop} {v : Variable}

/-- No bound variable occurs in a bound term; the bound variables are in the scope, and those that
occur in bound terms are known. -/
structure Resolved (scope known : Variable → Prop) (σ : Substitution) : Prop where
  solved : ∀ t ∈ σ.range, ∀ v ∈ t.vars, v ∉ σ.domain
  domain : ∀ v ∈ σ.domain, scope v
  range : ∀ t ∈ σ.range, ∀ v ∈ t.vars, known v

theorem resolved_of_unifyAll {equations : List Equation} (solved : unifyAll equations = .ok σ) :
    σ.Resolved (· ∈ equations.flatMap Equation.vars) (· ∈ equations.flatMap Equation.vars) := by
  obtain ⟨separate, range, domain⟩ := solved_of_unifyAll solved
  exact ⟨separate, domain, range⟩

private theorem mem_of_restrict_fold {vars : List Variable} {result : Substitution} {t : Term}
    (member : (v, t) ∈ (vars.foldl (fun result v => (σ.find? v).elim result (result.insertNew v)) result).bindings) :
    (v, t) ∈ result.bindings ∨ v ∈ vars := by
  induction vars generalizing result with
  | nil => exact .inl member
  | cons w vars ih =>
    rcases ih member with earlier | later
    · dsimp only at earlier
      cases found : σ.find? w with
      | none =>
        rw [found] at earlier
        exact .inl earlier
      | some u =>
        rw [found, Option.elim_some, insertNew] at earlier
        split at earlier
        · exact .inl earlier
        · rcases List.mem_append.mp earlier with old | new
          · exact .inl old
          · cases List.mem_singleton.mp new
            exact .inr (List.mem_cons_self ..)
    · exact .inr (List.mem_cons_of_mem w later)

theorem mem_bindings_restrict {vars : List Variable} {t : Term} (member : (v, t) ∈ (σ.restrict vars).bindings) :
    (v, t) ∈ σ.bindings ∧ v ∈ vars :=
  ⟨(restrict_fold vars fun p inside => nomatch (inside : p ∈ empty.bindings)).1 _ member,
    (mem_of_restrict_fold member).resolve_left nofun⟩

namespace Resolved

theorem mono (resolved : σ.Resolved scope known) (wider : ∀ v, scope v → scope' v)
    (wider' : ∀ v, known v → known' v) :
    σ.Resolved scope' known' :=
  ⟨resolved.solved, fun v bound => wider v (resolved.domain v bound),
    fun t member v occurs => wider' v (resolved.range t member v occurs)⟩

theorem isIdempotent (resolved : σ.Resolved scope known) : σ.isIdempotent = true :=
  isIdempotent_of_solved resolved.solved

/-- A variable bound to itself would occur in its own bound term. -/
theorem find?_ne_var (resolved : σ.Resolved scope known) (v : Variable) : σ.find? v ≠ some (.var v) := by
  intro found
  have member := find?_eq_some_iff.mp found
  exact resolved.solved _ (mem_range_of_mem member) v (by simp [Term.vars]) (mem_domain_iff.mpr ⟨_, member⟩)

private theorem of_mem_vars_apply (resolved : σ.Resolved scope known) {t : Term} (vars : ∀ v ∈ t.vars, known v)
    (occurs : v ∈ (σ.apply t).vars) : known v ∧ v ∉ σ.domain := by
  obtain ⟨w, inside, image⟩ := mem_vars_apply occurs
  rcases σ.image_mem_or w with bound | ⟨absent, free⟩
  · have member := mem_range_of_mem bound
    exact ⟨resolved.range _ member v image, resolved.solved _ member v image⟩
  · rw [free, Term.vars, List.mem_singleton] at image
    subst image
    exact ⟨vars v inside, absent⟩

theorem of_mem_vars_applyEquations (resolved : σ.Resolved scope known) {equations : List Equation}
    (vars : ∀ v ∈ equations.flatMap Equation.vars, known v)
    (occurs : v ∈ (equations.map σ.applyEquation).flatMap Equation.vars) : known v ∧ v ∉ σ.domain := by
  obtain ⟨e, member, inside⟩ := List.mem_flatMap.mp occurs
  obtain ⟨origin, listed, rfl⟩ := List.mem_map.mp member
  have each (w : Variable) (occurs : w ∈ origin.vars) :
      known w := vars w (List.mem_flatMap.mpr ⟨origin, listed, occurs⟩)
  rcases List.mem_append.mp inside with left | right
  · exact resolved.of_mem_vars_apply (fun w occurs => each w (List.mem_append_left _ occurs)) left
  · exact resolved.of_mem_vars_apply (fun w occurs => each w (List.mem_append_right _ occurs)) right

/-- The second substitution must not bring back variables that the first has bound. -/
theorem compose (first : σ.Resolved scope known) (second : τ.Resolved scope known)
    (apart : ∀ t ∈ τ.range, ∀ v ∈ t.vars, v ∉ σ.domain) : (σ.compose τ).Resolved scope known := by
  have ofDomain (v : Variable) (bound : v ∈ (σ.compose τ).domain) : v ∈ σ.domain ∨ v ∈ τ.domain := by
    obtain ⟨t, member⟩ := mem_domain_iff.mp bound
    rcases mem_bindings_compose.mp member with ⟨u, inside, _⟩ | ⟨inside, _⟩
    · exact .inl (mem_domain_iff.mpr ⟨u, inside⟩)
    · exact .inr (mem_domain_iff.mpr ⟨t, inside⟩)
  have ofRange (t : Term) (member : t ∈ (σ.compose τ).range) (v : Variable) (occurs : v ∈ t.vars) :
      known v ∧ v ∉ σ.domain ∧ v ∉ τ.domain := by
    obtain ⟨w, bound⟩ := exists_of_mem_range member
    rcases mem_bindings_compose.mp bound with ⟨u, inside, rfl, _⟩ | ⟨inside, _⟩
    · have earlier := mem_range_of_mem inside
      obtain ⟨x, origin, image⟩ := mem_vars_apply occurs
      rcases τ.image_mem_or x with later | ⟨absent, free⟩
      · have member' := mem_range_of_mem later
        exact ⟨second.range _ member' v image, apart _ member' v image, second.solved _ member' v image⟩
      · rw [free, Term.vars, List.mem_singleton] at image
        subst image
        exact ⟨first.range u earlier v origin, first.solved u earlier v origin, absent⟩
    · have member' := mem_range_of_mem inside
      exact ⟨second.range t member' v occurs, apart t member' v occurs, second.solved t member' v occurs⟩
  refine ⟨fun t member v occurs bound => ?_, fun v bound => ?_,
    fun t member v occurs => (ofRange t member v occurs).1⟩
  · obtain ⟨_, outside, outside'⟩ := ofRange t member v occurs
    exact (ofDomain v bound).elim outside outside'
  · exact (ofDomain v bound).elim (first.domain v) (second.domain v)

/-- A restriction binds variables that are asked for. -/
theorem restrict (resolved : σ.Resolved scope known) (vars : List Variable) :
    (σ.restrict vars).Resolved (· ∈ vars) known := by
  have ofRange {t : Term} (member : t ∈ (σ.restrict vars).range) : t ∈ σ.range := by
    obtain ⟨v, bound⟩ := exists_of_mem_range member
    exact mem_range_of_mem (mem_bindings_restrict bound).1
  refine ⟨fun t member v occurs bound => ?_, fun v bound => ?_, fun t member => resolved.range t (ofRange member)⟩
  · obtain ⟨u, inside⟩ := mem_domain_iff.mp bound
    exact resolved.solved t (ofRange member) v occurs (mem_domain_iff.mpr ⟨u, (mem_bindings_restrict inside).1⟩)
  · obtain ⟨u, inside⟩ := mem_domain_iff.mp bound
    exact (mem_bindings_restrict inside).2

end Resolved

end Substitution

end Equational
