import Equational.ExpAC.Branching
import Equational.Proofs.ExpAC.Rule

/-! Every alternative refines the state it is tried on. Which alternative is right depends on the
assignment, but each by itself accounts for the definitions that it takes out. -/

namespace Equational.ExpAC.State

open Search

variable {signature : Signature} {known : FunctionSymbol → Prop} {n n' : Nat} {state next : State}
  {m : Variable → Term}

/-- Either all powers of one variable agree in base or in exponent, or four ways are tried. -/
theorem alternatives_cases (signature : Signature) (state : State) :
    (state.alternatives signature = pure none ∧ ∀ p ∈ state.powerPairs signature,
      (p.base₁ == p.base₂) = true ∨ (p.exponent₁ == p.exponent₂) = true) ∨
    ∃ p ∈ state.powerPairs signature, state.alternatives signature =
      (freshVariable signature.f.range >>= fun z => freshVariable signature.f.range >>= fun z' =>
        freshVariable signature.exp.domain >>= fun b => freshVariable signature.f.range >>= fun l =>
        freshVariable signature.f.range >>= fun y => freshVariable signature.f.range >>= fun w =>
        pure (some [state.baseIsPower signature p (.var z), state.baseIsPower signature p.swapped (.var z'),
          state.partsAgree p, state.commonBase signature p (.var b) (.var l) (.var y) (.var w)])) := by
  simp only [alternatives]
  split
  next none =>
    refine .inl ⟨rfl, fun p listed => ?_⟩
    have absent := List.find?_eq_none.mp none p listed
    simpa only [bne, Bool.not_eq_true, Bool.and_eq_false_iff, Bool.not_eq_false'] using absent
  next p found => exact .inr ⟨p, List.mem_of_find?_eq_some found, rfl⟩

section Alternatives

variable {p : Powers} {z : Term} (within : signature.Within known) (proper : state.Proper known n) (grown : n ≤ n')

include proper grown

include within in
private theorem refines_baseIsPower (member : (p.first, p.second) ∈ state.pairs ∨ (p.second, p.first) ∈ state.pairs)
    (first : Parts known (state.Usable n) signature.exp p.first.rhs p.base₁ p.exponent₁)
    (second : Parts known (state.Usable n) signature.exp p.second.rhs p.base₂ p.exponent₂)
    (name : z.Fits known (state.Usable n')) (applied : state.baseIsPower signature p z = .ok next) :
    Refines signature known n' state next := by
  replace first := first.mono fun _ usable => usable.mono grown
  replace second := second.mono fun _ usable => usable.mono grown
  obtain ⟨base, define₁, rest⟩ := exists_of_bind_eq_ok applied
  obtain ⟨exponent, define₂, rest⟩ := exists_of_bind_eq_ok rest
  cases rest
  rw [eq_of_define define₁, eq_of_define define₂]
  refine refines_drop proper grown member (.inl rfl) ?_ ?_
  · simp only [everySide_cons, everySide_nil, and_true]
    exact ⟨⟨first.left, .pair within.exp second.left name⟩, ⟨second.right, .pair within.f name first.right⟩⟩
  · intro m added
    simp only [List.forall_mem_cons] at added
    rw [first.instance', second.instance']
    exact .of_power added.1.pair added.2.1.pair

variable (listed : p.Listed signature known n state)
include listed

private theorem refines_partsAgree (applied : state.partsAgree p = .ok next) :
    Refines signature known n' state next := by
  have first := listed.first.mono fun _ usable => usable.mono grown
  have second := listed.second.mono fun _ usable => usable.mono grown
  obtain ⟨bases, oriented₁, rest⟩ := exists_of_bind_eq_ok applied
  obtain ⟨exponents, oriented₂, rest⟩ := exists_of_bind_eq_ok rest
  cases rest
  obtain ⟨fits₁, implied₁⟩ := refines_orient signature oriented₁ first.left second.left
  obtain ⟨fits₂, implied₂⟩ := refines_orient signature oriented₂ first.right second.right
  refine refines_drop proper grown (.inl listed.member) (.inr rfl) (List.forall_mem_append.mpr ⟨fits₁, fits₂⟩) ?_
  intro m added
  obtain ⟨added₁, added₂⟩ := List.forall_mem_append.mp added
  exact listed.agree .base (implied₁ m added₁) (implied₂ m added₂)

include within

private theorem refines_commonBase {l y w : Term} (name : z.Fits known (state.Usable n'))
    (name₁ : l.Fits known (state.Usable n')) (name₂ : y.Fits known (state.Usable n'))
    (name₃ : w.Fits known (state.Usable n')) (applied : state.commonBase signature p z l y w = .ok next) :
    Refines signature known n' state next := by
  have first := listed.first.mono fun _ usable => usable.mono grown
  have second := listed.second.mono fun _ usable => usable.mono grown
  obtain ⟨pair, same⟩ := mem_pairsOf listed.member
  have defines := ((proper.mono grown).definitions p.first (pair.subset (by simp))).1
  obtain ⟨base₁, define₁, rest⟩ := exists_of_bind_eq_ok applied
  obtain ⟨base₂, define₂, rest⟩ := exists_of_bind_eq_ok rest
  cases rest
  rw [eq_of_define define₁, eq_of_define define₂]
  refine refines_revise proper grown ?_ ?_
  · simp only [everySide_cons, everySide_nil, and_true]
    exact ⟨⟨defines, .pair within.exp name name₁⟩, ⟨first.left, .pair within.exp name name₂⟩,
      ⟨second.left, .pair within.exp name name₃⟩, ⟨name₁, .pair within.f first.right name₂⟩,
      ⟨name₁, .pair within.f second.right name₃⟩⟩
  · intro m kept added
    simp only [List.forall_mem_cons] at added
    obtain ⟨common, left, right, combined₁, combined₂, _⟩ := added
    -- The law asks for the new exponent on the left of the combination.
    have power₁ := EqualModulo.of_power left.pair (combined₁.pair.trans (.combine_comm within.laws _ _))
    have power₂ := EqualModulo.of_power right.pair (combined₂.pair.trans (.combine_comm within.laws _ _))
    have sides : EqualModulo signature (p.first.lhs.instantiate m) (p.second.lhs.instantiate m) :=
      .of_shape (Term.instantiate_congr (Term.beq_iff_shape.mp same) m)
    refine List.forall_mem_cons.mpr ⟨?_, List.forall_mem_singleton.mpr ?_⟩
    · rw [Equation.HoldsModulo, first.instance']
      exact common.pair.trans power₁.symm
    · rw [Equation.HoldsModulo, second.instance']
      exact sides.symm.trans (common.pair.trans power₂.symm)

end Alternatives

/-- Every alternative refines the state. -/
theorem ends_alternatives {session : Session} (within : signature.Within known)
    (proper : state.Proper known session.names) :
    (state.alternatives signature).Ends session (fun result after => ∀ alternatives, result = some alternatives →
      ∀ alternative ∈ alternatives, ∀ next, alternative = .ok next → Refines signature known after.names state next)
      (fun _ => True) := by
  rcases alternatives_cases signature state with ⟨none, _⟩ | ⟨p, member, step⟩
  · rw [none]
    exact ends_pure nofun
  · have listed := listed_of_mem_powerPairs within proper member
    rw [step]
    refine (ends_freshUsable proper signature.f.range).bind ?_
    intro z s₁ grown₁ usable₁
    refine (ends_freshUsable (proper.mono grown₁) signature.f.range).bind ?_
    intro z' s₂ grown₂ usable₂
    refine (ends_freshUsable (proper.mono (by omega)) signature.exp.domain).bind ?_
    intro b s₃ grown₃ usable₃
    refine (ends_freshUsable (proper.mono (by omega)) signature.f.range).bind ?_
    intro l s₄ grown₄ usable₄
    refine (ends_freshUsable (proper.mono (by omega)) signature.f.range).bind ?_
    intro y s₅ grown₅ usable₅
    refine (ends_freshUsable (proper.mono (by omega)) signature.f.range).bind ?_
    intro w s₆ grown₆ usable₆
    refine ends_pure ?_
    intro alternatives same
    cases same
    have grown : session.names ≤ s₆.names := by omega
    simp only [List.forall_mem_cons, List.not_mem_nil, false_implies, implies_true, and_true]
    refine ⟨?_, ?_, ?_, ?_⟩
    · intro next applied
      exact refines_baseIsPower within proper grown (.inl listed.member)
        listed.first listed.second (.var (usable₁.mono (by omega))) applied
    · intro next applied
      exact refines_baseIsPower within proper grown (p := p.swapped) (.inr listed.member)
        listed.second listed.first (.var (usable₂.mono (by omega))) applied
    · intro next applied
      exact refines_partsAgree proper grown listed applied
    · intro next applied
      exact refines_commonBase within proper grown listed (.var (usable₃.mono (by omega)))
        (.var (usable₄.mono (by omega)))
        (.var (usable₅.mono grown₆)) (.var usable₆) applied

end Equational.ExpAC.State
