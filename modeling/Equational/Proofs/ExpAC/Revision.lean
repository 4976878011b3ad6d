import Equational.Proofs.ExpAC.Extension

/-! What a step puts into a state. Eliminations apart, every rule and every alternative revises the
definitions by others that are made of the arguments of those there are and of names drawn in the
step, at most two of them put under one symbol. So what a step keeps is read off its material, and
so is why it fails: two of its materials make no definition. -/

namespace Equational.ExpAC.State

open Search

variable {signature : Signature} {state next : State} {session : Session} {fails : Failure → Prop} {n n' : Nat}
  {s t u : Term} {p : Powers} {e e₁ e₂ : Equation}

structure Drawn (signature : Signature) (n n' : Nat) (v : Variable) : Prop where
  sort : v.sort = signature.exp.domain ∨ v.sort = signature.g.domain ∨ v.sort = signature.f.range
  older : n ≤ v.id.index
  newer : v.id.index < n'

/-- What a step works with: arguments of the definitions, and names that it draws. -/
inductive Material (signature : Signature) (state : State) (n n' : Nat) : Term → Prop
  | argument {e : Equation} {h : FunctionSymbol} {args : List Term} {t : Term}
      (listed : e ∈ state.definitions.equations)
      (root : e.rhs = .node h args) (member : t ∈ args) : Material signature state n n' t
  | fresh {v : Variable} (drawn : Drawn signature n n' v) : Material signature state n n' (.var v)

/-- What a step can define: what is defined already, and variables among its material. -/
inductive Definable (signature : Signature) (state : State) (n n' : Nat) : Term → Prop
  | defined {e : Equation} (listed : e ∈ state.definitions.equations) : Definable signature state n n' e.lhs
  | var {v : Variable} (material : Material signature state n n' (.var v)) : Definable signature state n n' (.var v)

/-- A definition made of the material of a step, by itself or under a symbol of the laws. -/
inductive Made (signature : Signature) (state : State) (n n' : Nat) : Equation → Prop
  | leaf {s t : Term} (left : Definable signature state n n' s) (right : Material signature state n n' t) :
      Made signature state n n' ⟨s, t⟩
  | pair {h : FunctionSymbol} {s t u : Term} (law : h = signature.exp ∨ h = signature.g ∨ h = signature.f)
      (left : Definable signature state n n' s) (first : Material signature state n n' t)
      (second : Material signature state n n' u) :
      Made signature state n n' ⟨s, .app h [t, u]⟩

def Revised (signature : Signature) (state : State) (n n' : Nat) (next : State) : Prop :=
  ∃ remove add, next = state.revise remove add ∧ ∀ e ∈ add, Made signature state n n' e

/-- A name drawn in the step, with material that is older. -/
inductive Paired (signature : Signature) (state : State) (n n' : Nat) : Term → Term → Prop
  | left {v : Variable} {t : Term} (drawn : Drawn signature n n' v)
      (other : Material signature state n v.id.index t) :
      Paired signature state n n' (.var v) t
  | right {v : Variable} {t : Term} (drawn : Drawn signature n n' v)
      (other : Material signature state n v.id.index t) :
      Paired signature state n n' t (.var v)

/-- Why a step fails: what it sets equal, or defines by a name and something else, has no flat form, or it
compares lists of different lengths. -/
inductive Stuck (signature : Signature) (state : State) (n : Nat) : Failure → Prop
  | orient {n' : Nat} {s t : Term} {failure : Failure} (left : Material signature state n n' s)
      (right : Material signature state n n' t) (failed : orient s t = .error failure) :
      Stuck signature state n failure
  | define {n' : Nat} {h : FunctionSymbol} {s t u : Term} {failure : Failure} (left : Material signature state n n' s)
      (arguments : Paired signature state n n' t u) (failed : define s (.app h [t, u]) = .error failure) :
      Stuck signature state n failure
  | arity (expected found : Nat) : Stuck signature state n (.arityMismatch expected found)

private theorem Drawn.mono {m m' : Nat} {v : Variable} (drawn : Drawn signature n n' v) (older : m ≤ n)
    (grown : n' ≤ m') :
    Drawn signature m m' v :=
  ⟨drawn.sort, older.trans drawn.older, Nat.lt_of_lt_of_le drawn.newer grown⟩

theorem Material.mono {m m' : Nat} (material : Material signature state n n' t) (older : m ≤ n) (grown : n' ≤ m') :
    Material signature state m m' t := by
  cases material with
  | argument listed root member => exact .argument listed root member
  | fresh drawn => exact .fresh (drawn.mono older grown)

theorem Paired.material (paired : Paired signature state n n' s t) :
    Material signature state n n' s ∧ Material signature state n n' t := by
  cases paired with
  | left drawn other => exact ⟨.fresh drawn, other.mono (Nat.le_refl n) drawn.newer.le⟩
  | right drawn other => exact ⟨other.mono (Nat.le_refl n) drawn.newer.le, .fresh drawn⟩

private theorem material_of_partsOf {symbol : FunctionSymbol} (listed : e ∈ state.definitions.equations)
    (found : Signature.partsOf symbol e.rhs = some (s, t)) :
    Material signature state n n' s ∧ Material signature state n n' t := by
  obtain ⟨h, root, _⟩ := exists_of_partsOf found
  exact ⟨.argument listed root (by simp), .argument listed root (by simp)⟩

private theorem listed_of_mem_pairs (member : (e₁, e₂) ∈ state.pairs) :
    e₁ ∈ state.definitions.equations ∧ e₂ ∈ state.definitions.equations := by
  have inside := (mem_pairsOf member).1.subset
  exact ⟨inside (by simp), inside (by simp)⟩

structure Powers.IsMaterial (signature : Signature) (state : State) (n n' : Nat) (p : Powers) : Prop where
  base₁ : Material signature state n n' p.base₁
  exponent₁ : Material signature state n n' p.exponent₁
  base₂ : Material signature state n n' p.base₂
  exponent₂ : Material signature state n n' p.exponent₂

private theorem isMaterial_of_mem_powerPairs (member : p ∈ state.powerPairs signature) :
    p.IsMaterial signature state n n' := by
  obtain ⟨listed, left, right⟩ := of_mem_powerPairs member
  obtain ⟨first, second⟩ := listed_of_mem_pairs listed
  obtain ⟨base₁, exponent₁⟩ := material_of_partsOf first left
  obtain ⟨base₂, exponent₂⟩ := material_of_partsOf second right
  exact ⟨base₁, exponent₁, base₂, exponent₂⟩

private theorem Powers.IsMaterial.swapped (parts : p.IsMaterial signature state n n') :
    p.swapped.IsMaterial signature state n n' :=
  ⟨parts.base₂, parts.exponent₂, parts.base₁, parts.exponent₁⟩

private theorem Powers.IsMaterial.part (parts : p.IsMaterial signature state n n') (part : Part) :
    Material signature state n n' (p.part₁ part) ∧ Material signature state n n' (p.part₂ part) := by
  cases part with
  | base => exact ⟨parts.base₁, parts.base₂⟩
  | exponent => exact ⟨parts.exponent₁, parts.exponent₂⟩

section Made

variable {xs ys : List Term}

private theorem gives_orient (left : Material signature state n n' s) (right : Material signature state n n' t) :
    (orient s t).Gives (∀ e ∈ ·, Made signature state n n' e) (Stuck signature state n) := by
  refine Except.gives_of (fun add oriented => ?_) fun failure failed => .orient left right failed
  rcases orient_cases oriented with ⟨_, rfl⟩ | ⟨v, rfl, rfl⟩ | ⟨v, rfl, rfl⟩
  · exact List.forall_mem_nil _
  · exact List.forall_mem_singleton.mpr (.leaf (.var left) right)
  · exact List.forall_mem_singleton.mpr (.leaf (.var right) left)

private theorem gives_orientAll (left : ∀ x ∈ xs, Material signature state n n' x)
    (right : ∀ y ∈ ys, Material signature state n n' y) :
    ((xs.zip ys).mapM fun p => orient p.1 p.2).Gives (fun added => ∀ e ∈ added.flatten, Made signature state n n' e)
      (Stuck signature state n) := by
  have each : ∀ p ∈ xs.zip ys, (orient p.1 p.2).Gives (∀ e ∈ ·, Made signature state n n' e)
      (Stuck signature state n) := by
    intro p zipped
    obtain ⟨first, second⟩ := List.of_mem_zip zipped
    exact gives_orient (left _ first) (right _ second)
  refine (Except.gives_mapM each).mono (fun added made e member => ?_) fun _ stuck => stuck
  obtain ⟨add, listed, inside⟩ := List.mem_flatten.mp member
  exact made add listed e inside

private theorem gives_define {h : FunctionSymbol} (law : h = signature.exp ∨ h = signature.g ∨ h = signature.f)
    (left : Material signature state n n' s) (arguments : Paired signature state n n' t u) :
    (define s (.app h [t, u])).Gives (Made signature state n n') (Stuck signature state n) := by
  refine Except.gives_of (fun e defined => ?_) fun failure failed => .define left arguments failed
  obtain rfl := eq_of_define defined
  cases s with
  | var v => exact .pair law (.var left) arguments.material.1 arguments.material.2
  | const c =>
    simp only [define] at defined
    split at defined <;> cases defined
  | node g args => cases defined

end Made

section Rules

private theorem gives_mergePowers (shared : Part) :
    (state.mergePowers signature shared).Gives (∀ next, · = some next → Revised signature state n n' next)
      (Stuck signature state n) := by
  rcases mergePowers_cases signature state shared with ⟨none, _⟩ | ⟨p, member, _, step⟩
  · rw [none]
    exact nofun
  · obtain ⟨first, second⟩ : Material signature state n n' (p.part₁ shared.other) ∧
        Material signature state n n' (p.part₂ shared.other) :=
      (isMaterial_of_mem_powerPairs member).part shared.other
    rw [step]
    refine (gives_orient first second).bind fun add made next same => ?_
    cases same
    exact ⟨_, _, rfl, made⟩

private theorem gives_mergePairs : (state.mergePairs signature).Gives
    (∀ next, · = some next → Revised signature state n n' next) (Stuck signature state n) := by
  rcases mergePairs_cases signature state with ⟨none, _⟩ | ⟨e₁, e₂, u₁, v₁, u₂, v₂, member, left, right, step⟩
  · rw [none]
    exact nofun
  · obtain ⟨listed₁, listed₂⟩ := listed_of_mem_pairs member
    have parts₁ : Material signature state n n' u₁ ∧ Material signature state n n' v₁ :=
      material_of_partsOf listed₁ left
    have parts₂ : Material signature state n n' u₂ ∧ Material signature state n n' v₂ :=
      material_of_partsOf listed₂ right
    rw [step]
    refine (gives_orient parts₁.1 parts₂.1).bind fun firsts made => ?_
    refine (gives_orient parts₁.2 parts₂.2).bind fun seconds made' next same => ?_
    cases same
    exact ⟨_, _, rfl, List.forall_mem_append.mpr ⟨made, made'⟩⟩

private theorem gives_decompose : (state.decompose signature).Gives
    (∀ next, · = some next → Revised signature state n n' next) (Stuck signature state n) := by
  rcases decompose_cases signature state with ⟨none, _⟩ | ⟨e₁, e₂, h₁, xs, h₂, ys, member, root₁, root₂, _, _, step⟩
  · rw [none]
    exact nofun
  · obtain ⟨first, second⟩ := listed_of_mem_pairs member
    rw [step]
    split
    · exact .arity _ _
    · have left : ∀ x ∈ xs, Material signature state n n' x := fun x inside => .argument first root₁ inside
      have right : ∀ y ∈ ys, Material signature state n n' y := fun y inside => .argument second root₂ inside
      refine (gives_orientAll left right).bind fun added made next same => ?_
      cases same
      exact ⟨_, _, rfl, made⟩

private theorem ends_freshDrawn {sort : SortId} (sorts : sort = signature.exp.domain ∨ sort = signature.g.domain ∨
      sort = signature.f.range) :
    (freshVariable sort).Ends session (fun v after => Drawn signature session.names after.names v) fails :=
  ends_freshVariable sort fun after names => ⟨sorts, Nat.le_refl _, by rw [names]; exact Nat.lt_succ_self _⟩

private theorem ends_distribute_revised : (state.distribute signature).Ends session
    (fun result after => ∀ next, result = some next → Revised signature state session.names after.names next)
    (Stuck signature state session.names) := by
  rcases distribute_cases signature state with ⟨none, _⟩ | ⟨power, pair, s, t, u, v, member, left, right, step⟩
  · rw [none]
    exact ends_pure nofun
  · have listed : power ∈ state.definitions.equations ∧ pair ∈ state.definitions.equations := by
      rcases member with member | member
      · exact listed_of_mem_pairs member
      · exact (listed_of_mem_pairs member).symm
    rw [step]
    refine (ends_freshDrawn (.inr (.inl rfl))).bind fun v₁ during grown drawn₁ => ?_
    refine (ends_freshDrawn (.inr (.inl rfl))).bind fun v₂ after grown' drawn₂ => ends_of_gives ?_
    have parts {n' : Nat} : Material signature state session.names n' s ∧
        Material signature state session.names n' t :=
      material_of_partsOf listed.1 left
    have parts' {n' : Nat} : Material signature state session.names n' u ∧
        Material signature state session.names n' v :=
      material_of_partsOf listed.2 right
    have later₁ := drawn₁.mono (Nat.le_refl _) grown'
    have later₂ := drawn₂.mono grown (Nat.le_refl _)
    refine (gives_define (.inr (.inl rfl)) parts.1
      (.right later₂ (.fresh (drawn₁.mono (Nat.le_refl _) drawn₂.older)))).bind
      fun base made₁ => ?_
    refine (gives_define (.inl rfl) parts'.1 (.left later₁ parts.2)).bind fun first made₂ => ?_
    refine (gives_define (.inl rfl) parts'.2 (.left later₂ parts.2)).bind fun second made₃ next same => ?_
    cases same
    refine ⟨_, _, rfl, ?_⟩
    simp only [List.forall_mem_cons, List.not_mem_nil, false_implies, implies_true, and_true]
    exact ⟨made₁, made₂, made₃⟩

private theorem ends_composeExponents_revised : (state.composeExponents signature).Ends session
    (fun result after => ∀ next, result = some next →
      Revised signature state session.names after.names next) fails := by
  rcases composeExponents_cases signature state with none | ⟨outer, listed, inner, listed', y, s, t₁, t₂, _, left,
    right, step⟩
  · rw [none]
    exact ends_pure nofun
  · rw [step]
    refine (ends_freshDrawn (.inr (.inr rfl))).bind fun z after grown drawn => ends_pure fun next same => ?_
    cases same
    obtain ⟨_, exponent⟩ := material_of_partsOf listed left
    obtain ⟨base, exponent'⟩ := material_of_partsOf listed' right
    refine ⟨_, _, rfl, ?_⟩
    simp only [List.forall_mem_cons, List.not_mem_nil, false_implies, implies_true, and_true]
    exact ⟨.pair (.inl rfl) (.defined listed) base (.fresh drawn),
      .pair (.inr (.inr rfl)) (.var (.fresh drawn)) exponent' exponent⟩

/-- Every rule but the elimination revises the state. -/
theorem ends_apply_revised {rule : Rule} (other : rule ≠ .eliminate) : (state.apply signature rule).Ends session
    (fun result after => ∀ next, result = some next → Revised signature state session.names after.names next)
    (Stuck signature state session.names) := by
  cases rule with
  | eliminate => exact absurd rfl other
  | sameBase => exact ends_of_gives (gives_mergePowers .base)
  | sameExponent => exact ends_of_gives (gives_mergePowers .exponent)
  | mergePairs => exact ends_of_gives gives_mergePairs
  | decompose => exact ends_of_gives gives_decompose
  | distribute => exact ends_distribute_revised
  | compose => exact ends_composeExponents_revised

end Rules

section Alternatives

variable (parts : ∀ {m : Nat}, p.IsMaterial signature state n m)
include parts

private theorem gives_baseIsPower {z : Variable} (drawn : Drawn signature n n' z) :
    (state.baseIsPower signature p (.var z)).Gives (Revised signature state n n') (Stuck signature state n) := by
  refine (gives_define (.inl rfl) parts.base₁ (.right drawn parts.base₂)).bind fun base made => ?_
  refine (gives_define (.inr (.inr rfl)) parts.exponent₂ (.left drawn parts.exponent₁)).bind fun exponent made' =>
    ⟨_, _, rfl, ?_⟩
  simp only [List.forall_mem_cons, List.not_mem_nil, false_implies, implies_true, and_true]
  exact ⟨made, made'⟩

private theorem gives_partsAgree : (state.partsAgree p).Gives (Revised signature state n n')
    (Stuck signature state n) := by
  have parts' : p.IsMaterial signature state n n' := parts
  refine (gives_orient parts'.base₁ parts'.base₂).bind fun bases made => ?_
  refine (gives_orient parts'.exponent₁ parts'.exponent₂).bind fun exponents made' => ⟨_, _, rfl, ?_⟩
  exact List.forall_mem_append.mpr ⟨made, made'⟩

private theorem gives_commonBase (listed : p.first ∈ state.definitions.equations) {b l y w : Variable}
    (drawnB : Drawn signature n n' b)
    (drawnL : Drawn signature n n' l) (drawnY : Drawn signature n n' y) (drawnW : Drawn signature n n' w)
    (first : b.id.index < y.id.index) (second : b.id.index < w.id.index) :
    (state.commonBase signature p (.var b) (.var l) (.var y) (.var w)).Gives (Revised signature state n n')
      (Stuck signature state n) := by
  have before {m : Nat} (newer : b.id.index < m) :
      Material signature state n m (.var b) := .fresh ⟨drawnB.sort, drawnB.older, newer⟩
  refine (gives_define (.inl rfl) parts.base₁ (.right drawnY (before first))).bind fun base made => ?_
  refine (gives_define (.inl rfl) parts.base₂ (.right drawnW (before second))).bind fun base' made' => ⟨_, _, rfl, ?_⟩
  simp only [List.forall_mem_cons, List.not_mem_nil, false_implies, implies_true, and_true]
  exact ⟨.pair (.inl rfl) (.defined listed) (.fresh drawnB) (.fresh drawnL), made, made',
    .pair (.inr (.inr rfl)) (.var (.fresh drawnL)) parts.exponent₁ (.fresh drawnY),
    .pair (.inr (.inr rfl)) (.var (.fresh drawnL)) parts.exponent₂ (.fresh drawnW)⟩

end Alternatives

/-- Every alternative revises the state. -/
theorem ends_alternatives_revised : (state.alternatives signature).Ends session
    (fun result after => ∀ alternatives, result = some alternatives → ∀ alternative ∈ alternatives,
      alternative.Gives (Revised signature state session.names after.names)
        (Stuck signature state session.names)) fails := by
  rcases alternatives_cases signature state with ⟨none, _⟩ | ⟨p, member, step⟩
  · rw [none]
    exact ends_pure nofun
  · rw [step]
    refine (ends_freshDrawn (.inr (.inr rfl))).bind fun z s₁ grown₁ drawnZ => ?_
    refine (ends_freshDrawn (.inr (.inr rfl))).bind fun z' s₂ grown₂ drawnZ' => ?_
    refine (ends_freshDrawn (.inl rfl)).bind fun b s₃ grown₃ drawnB => ?_
    refine (ends_freshDrawn (.inr (.inr rfl))).bind fun l s₄ grown₄ drawnL => ?_
    refine (ends_freshDrawn (.inr (.inr rfl))).bind fun y s₅ grown₅ drawnY => ?_
    refine (ends_freshDrawn (.inr (.inr rfl))).bind fun w s₆ grown₆ drawnW => ends_pure ?_
    intro alternatives same
    cases same
    have parts {m : Nat} : p.IsMaterial signature state session.names m := isMaterial_of_mem_powerPairs member
    have listed := (listed_of_mem_pairs (of_mem_powerPairs member).1).1
    have orderY := drawnB.newer.trans_le (grown₄.trans drawnY.older)
    have orderW := drawnB.newer.trans_le (grown₄.trans (grown₅.trans drawnW.older))
    simp only [List.forall_mem_cons, List.not_mem_nil, false_implies, implies_true, and_true]
    exact ⟨gives_baseIsPower parts (drawnZ.mono (by omega) (by omega)),
      gives_baseIsPower parts.swapped (drawnZ'.mono (by omega) (by omega)), gives_partsAgree parts,
      gives_commonBase parts listed (drawnB.mono (by omega) (by omega)) (drawnL.mono (by omega) (by omega))
        (drawnY.mono (by omega) (by omega)) (drawnW.mono (by omega) (by omega)) orderY orderW⟩

end Equational.ExpAC.State
