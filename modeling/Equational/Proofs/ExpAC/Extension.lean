import Equational.Proofs.ExpAC.Preservation

/-! The rules that draw fresh variables lose no solution either: the laws say which values the fresh
variables take. A power that is a pair is the power of a pair, a power of a power has the combined
exponent, and equal powers meet in one of the ways that are tried. A state with a solution also
passes validation, because the values of arguments weigh less than the value of an application. -/

namespace Equational.ExpAC.State

open Search

variable {signature : Signature} {known : FunctionSymbol → Prop} {m m' : Variable → Term} {n n' : Nat} {s t u : Term}
  {state : State} {session : Session}

section Searches

variable (sorted : signature.OneSorted) (within : signature.Within known) (proper : state.Proper known session.names)
  (solved : state.SolvedBy signature session.names m)

private theorem equal_of_fits (signature : Signature) (fits : t.Fits known (state.Usable n))
    (extended : Extends n m m') :
    EqualModulo signature (t.instantiate m') (t.instantiate m) :=
  extended.instantiate (EqualModulo.congruence signature) fun v occurs => (fits.vars v occurs).1

/-- Fresh variables can take any values together. -/
private theorem exists_assignment (values : List (Variable × Term)) (regular : RegularOn signature m)
    (fresh : ∀ p ∈ values, n ≤ p.1.id.index) (distinct : (values.map Prod.fst).Nodup)
    (fitting : ∀ p ∈ values, p.2.isRegular signature.f = true) :
    ∃ m', Extends n m m' ∧ RegularOn signature m' ∧ ∀ p ∈ values, m' p.1 = p.2 := by
  induction values with
  | nil => exact ⟨m, .refl n m, regular, nofun⟩
  | cons p rest ih =>
    obtain ⟨first, later⟩ := List.forall_mem_cons.mp fresh
    obtain ⟨apart, distinct⟩ := List.nodup_cons.mp distinct
    obtain ⟨value, fitting⟩ := List.forall_mem_cons.mp fitting
    obtain ⟨m', extended, regular', assigned⟩ := ih later distinct fitting
    refine ⟨Function.update m' p.1 p.2, extended.update first p.2, regular'.update value, ?_⟩
    refine List.forall_mem_cons.mpr ⟨Function.update_self .., fun q member => ?_⟩
    have other : q.1 ≠ p.1 := fun same => apart (same ▸ List.mem_map_of_mem member)
    rw [Function.update_of_ne other, assigned q member]

structure Spread (signature : Signature) (known : FunctionSymbol → Prop) (n : Nat) (state : State)
    (m : Variable → Term) (s t u v : Term) : Prop where
  base : IsPlain signature known n state s
  exponent : IsPlain signature known n state t
  left : IsPlain signature known n state u
  right : IsPlain signature known n state v
  equal : EqualModulo signature (signature.power (s.instantiate m) (t.instantiate m))
    (.app signature.g [u.instantiate m, v.instantiate m])

include sorted proper solved

private theorem inherits_spread {s t u v : Term} {v₁ v₂ : Variable} (removed : List Equation)
    (grown : session.names ≤ n')
    (spread : Spread signature known session.names state m s t u v) (fresh₁ : session.names ≤ v₁.id.index)
    (fresh₂ : session.names ≤ v₂.id.index) (other : v₁ ≠ v₂) (sort₁ : v₁.sort = signature.g.domain)
    (sort₂ : v₂.sort = signature.g.domain) :
    ∃ base first second, define s (.app signature.g [.var v₁, .var v₂]) = .ok base ∧
      define u (signature.power (.var v₁) t) = .ok first ∧ define v (signature.power (.var v₂) t) = .ok second ∧
      Inherits signature session.names m n' (state.revise removed [base, first, second]) := by
  have value {t : Term} (plain : IsPlain signature known session.names state t) :=
    solved.regular.instantiate sorted.f plain.regular
  obtain ⟨a, b, regularA, regularB, base, first, second⟩ := EqualModulo.exists_spread sorted (value spread.base)
    (value spread.exponent) (value spread.left) (value spread.right) spread.equal
  have leaf₁ : IsLeaf signature (.var v₁) := isLeaf_var (sort₁.trans sorted.gDomain)
  have leaf₂ : IsLeaf signature (.var v₂) := isLeaf_var (sort₂.trans sorted.gDomain)
  obtain ⟨m', extended, regular, assigned⟩ := exists_assignment (n := session.names) [(v₁, a), (v₂, b)] solved.regular
    (by simp [fresh₁, fresh₂]) (by simpa using other) (by simp [regularA, regularB])
  obtain ⟨value₁, value₂⟩ : m' v₁ = a ∧ m' v₂ = b := by simpa using assigned
  have kept {x : Term} (plain : IsPlain signature known session.names state x) :=
    equal_of_fits signature plain.fits extended
  obtain ⟨define₁, definition₁⟩ := define_pair (m := m') sorted (.inr (.inl rfl)) spread.base.toIsLeaf leaf₁ leaf₂ (by
    rw [Term.instantiate, Term.instantiate, value₁, value₂]
    exact (kept spread.base).trans base) regular
  obtain ⟨define₂, definition₂⟩ :=
    define_pair (m := m') sorted (.inl rfl) spread.left.toIsLeaf leaf₁ spread.exponent.toIsLeaf (by
    rw [Term.instantiate, value₁]
    exact (kept spread.left).trans (first.trans (.pair _ (.refl a) (kept spread.exponent).symm))) regular
  obtain ⟨define₃, definition₃⟩ :=
    define_pair (m := m') sorted (.inl rfl) spread.right.toIsLeaf leaf₂ spread.exponent.toIsLeaf (by
    rw [Term.instantiate, value₂]
    exact (kept spread.right).trans (second.trans (.pair _ (.refl b) (kept spread.exponent).symm))) regular
  refine ⟨_, _, _, define₁, define₂, define₃, inherits_revise proper solved grown extended regular ?_⟩
  simp only [List.forall_mem_cons, List.not_mem_nil, false_implies, implies_true, and_true]
  exact ⟨definition₁, definition₂, definition₃⟩

include within

theorem ends_distribute_inherits : (state.distribute signature).Ends session
    (fun result after => ∀ next, result = some next → Inherits signature session.names m after.names next)
    (fun _ => False) := by
  rcases distribute_cases signature state with ⟨none, _⟩ | ⟨power, pair, s, t, u, v, listed, left, right, step⟩
  · rw [none]
    exact ends_pure nofun
  · have inside : power ∈ state.definitions.equations ∧ pair ∈ state.definitions.equations ∧
        EqualModulo signature (power.rhs.instantiate m) (pair.rhs.instantiate m) := by
      rcases listed with listed | listed
      · have members := (mem_pairsOf listed).1.subset
        exact ⟨members (by simp), members (by simp), equal_of_mem_pairs solved.holds listed⟩
      · have members := (mem_pairsOf listed).1.subset
        exact ⟨members (by simp), members (by simp), (equal_of_mem_pairs solved.holds listed).symm⟩
    obtain ⟨powerListed, pairListed, equal⟩ := inside
    have powerParts := parts_of_partsOf within.consistent within.exp (proper.definitions power powerListed).2 left
    have pairParts := parts_of_partsOf within.consistent within.g (proper.definitions pair pairListed).2 right
    obtain ⟨leafS, leafT⟩ := (solved.tidy.definitions power powerListed).right.parts left
    obtain ⟨leafU, leafV⟩ := (solved.tidy.definitions pair pairListed).right.parts right
    rw [powerParts.instance', pairParts.instance'] at equal
    have spread : Spread signature known session.names state m s t u v := ⟨⟨leafS, powerParts.left⟩,
      ⟨leafT, powerParts.right⟩, ⟨leafU, pairParts.left⟩, ⟨leafV, pairParts.right⟩, equal⟩
    rw [step]
    refine (ends_freshNamed signature.g.domain).bind ?_
    rintro v₁ during _ ⟨rfl, names₁⟩
    refine (ends_freshNamed signature.g.domain).bind ?_
    rintro v₂ after _ ⟨rfl, names₂⟩
    have other : (⟨⟨session.names⟩, signature.g.domain⟩ : Variable) ≠ ⟨⟨during.names⟩, signature.g.domain⟩ := by
      simp [names₁]
    have grown : session.names ≤ after.names := by omega
    obtain ⟨base, first, second, define₁, define₂, define₃, inherits⟩ :=
      inherits_spread sorted proper solved [pair] grown spread
      (Nat.le_refl _) (by simp [names₁]) other rfl rfl
    rw [define₁, define₂, define₃]
    refine ends_pure fun next same => ?_
    cases same
    exact inherits

/-- The fresh exponent of a power of a power is the combination of the two exponents. -/
theorem ends_composeExponents_inherits : (state.composeExponents signature).Ends session
    (fun result after => ∀ next, result = some next → Inherits signature session.names m after.names next)
    (fun _ => False) := by
  rcases composeExponents_cases signature state with none | ⟨outer, listed, inner, listed', y, s, t₁, t₂, lhs, left,
    right, step⟩
  · rw [none]
    exact ends_pure nofun
  · have outerParts := parts_of_partsOf within.consistent within.exp (proper.definitions outer listed).2 left
    have innerParts := parts_of_partsOf within.consistent within.exp (proper.definitions inner listed').2 right
    have definition := solved.tidy.definitions outer listed
    obtain ⟨_, leaf₁⟩ := definition.right.parts left
    obtain ⟨leafS, leaf₂⟩ := (solved.tidy.definitions inner listed').right.parts right
    have outerHolds := solved.holds.definitions outer listed
    have innerHolds := solved.holds.definitions inner listed'
    rw [Equation.HoldsModulo, outerParts.instance'] at outerHolds
    rw [Equation.HoldsModulo, lhs, innerParts.instance'] at innerHolds
    rw [step]
    refine (ends_freshNamed signature.f.range).bind ?_
    rintro z after _ ⟨rfl, names⟩
    generalize same : (⟨⟨session.names⟩, signature.f.range⟩ : Variable) = z
    have leafZ : IsLeaf signature (.var z) := isLeaf_var (by rw [← same])
    have value {t : Term} (leaf : IsLeaf signature t) := solved.regular.instantiate sorted.f leaf.regular
    obtain ⟨m', extended, regular, assigned⟩ := exists_assignment (n := session.names)
      [(z, signature.combine (t₂.instantiate m) (t₁.instantiate m))] solved.regular (by simp [← same]) (by simp)
      (by simpa using isRegular_combine sorted (value leaf₂) (value leaf₁))
    have valueZ := assigned _ (List.mem_singleton_self _)
    have lhs' := equal_of_fits signature (proper.definitions outer listed).1 extended
    have keptS := equal_of_fits signature innerParts.left extended
    have kept₁ := equal_of_fits signature outerParts.right extended
    have kept₂ := equal_of_fits signature innerParts.right extended
    have leafX : IsLeaf signature outer.lhs := ⟨isSimple_of_isVariable definition.named, definition.left⟩
    obtain ⟨_, power⟩ := define_pair (m := m') sorted (.inl rfl) leafX leafS leafZ
      (lhs'.trans (outerHolds.trans (.trans (.of_power innerHolds (by rw [Term.instantiate, valueZ]; exact .refl _))
        (.pair _ keptS.symm (.refl _))))) regular
    obtain ⟨_, combined⟩ := define_pair (m := m') sorted (.inr (.inr rfl)) leafZ leaf₂ leaf₁
      (by rw [Term.instantiate, valueZ]; exact .pair _ kept₂.symm kept₁.symm) regular
    refine ends_pure fun next same => ?_
    cases same
    exact inherits_revise proper solved (by omega) extended regular (by simpa using ⟨power, combined⟩)

end Searches

section Alternatives

variable (sorted : signature.OneSorted) (within : signature.Within known) (proper : state.Proper known n)
  (solved : state.SolvedBy signature n m) {p : Powers} (powers : p.Solved signature known n state m) (grown : n ≤ n')

omit grown in
private theorem Powers.Solved.swapped (powers : p.Solved signature known n state m) :
    p.swapped.Solved signature known n state m :=
  ⟨powers.base₂, powers.exponent₂, powers.base₁, powers.exponent₁, powers.equal.symm⟩

include sorted proper solved powers grown

private theorem inherits_baseIsPower {z : Variable} (fresh : n ≤ z.id.index) (sort : z.sort = signature.f.range)
    (regular : t.isRegular signature.f = true)
    (base : EqualModulo signature (p.base₁.instantiate m) (signature.power (p.base₂.instantiate m) t))
    (exponent : EqualModulo signature (p.exponent₂.instantiate m) (signature.combine t (p.exponent₁.instantiate m))) :
    ∃ next, state.baseIsPower signature p (.var z) = .ok next ∧ Inherits signature n m n' next := by
  have leafZ : IsLeaf signature (.var z) := isLeaf_var sort
  obtain ⟨m', extended, regular', assigned⟩ := exists_assignment (n := n) [(z, t)] solved.regular (by simpa using fresh)
    (by simp) (by simpa using regular)
  have value := assigned _ (List.mem_singleton_self _)
  have kept {x : Term} (plain : IsPlain signature known n state x) := equal_of_fits signature plain.fits extended
  obtain ⟨define₁, definition₁⟩ :=
    define_pair (m := m') sorted (.inl rfl) powers.base₁.toIsLeaf powers.base₂.toIsLeaf leafZ (by
    rw [Term.instantiate, value]
    exact (kept powers.base₁).trans (base.trans (.pair _ (kept powers.base₂).symm (.refl t)))) regular'
  obtain ⟨define₂, definition₂⟩ := define_pair (m := m') sorted (.inr (.inr rfl)) powers.exponent₂.toIsLeaf leafZ
    powers.exponent₁.toIsLeaf (by
      rw [Term.instantiate, value]
      exact (kept powers.exponent₂).trans (exponent.trans (.pair _ (.refl t) (kept powers.exponent₁).symm))) regular'
  simp only [baseIsPower, Signature.power, Signature.combine]
  rw [define₁, define₂]
  exact ⟨_, rfl, inherits_revise proper solved grown extended regular' (by simpa using ⟨definition₁, definition₂⟩)⟩

private theorem inherits_partsAgree (bases : EqualModulo signature (p.base₁.instantiate m) (p.base₂.instantiate m))
    (exponents : EqualModulo signature (p.exponent₁.instantiate m) (p.exponent₂.instantiate m)) :
    ∃ next, state.partsAgree p = .ok next ∧ Inherits signature n m n' next := by
  obtain ⟨add₁, oriented₁, definitions₁⟩ :=
    exists_orient_holds sorted.toLawful powers.base₁.toIsLeaf powers.base₂.toIsLeaf bases
  obtain ⟨add₂, oriented₂, definitions₂⟩ :=
    exists_orient_holds sorted.toLawful powers.exponent₁.toIsLeaf powers.exponent₂.toIsLeaf exponents
  rw [partsAgree, oriented₁, oriented₂]
  exact ⟨_, rfl, inherits_revise proper solved grown (.refl n m) solved.regular
    (List.forall_mem_append.mpr ⟨definitions₁, definitions₂⟩)⟩

omit powers
include within

private theorem inherits_commonBase (member : p ∈ state.powerPairs signature) {b l y w : Variable}
    {base exponent₁ exponent₂ : Term}
    (fresh : ∀ v ∈ [b, l, y, w], n ≤ v.id.index ∧ v.sort = signature.f.range) (distinct : [b, l, y, w].Nodup)
    (regular : ∀ t ∈ [base, exponent₁, exponent₂], t.isRegular signature.f = true)
    (base₁ : EqualModulo signature (p.base₁.instantiate m) (signature.power base exponent₁))
    (base₂ : EqualModulo signature (p.base₂.instantiate m) (signature.power base exponent₂))
    (exponents : EqualModulo signature (signature.combine (p.exponent₁.instantiate m) exponent₁)
      (signature.combine (p.exponent₂.instantiate m) exponent₂)) :
    ∃ next, state.commonBase signature p (.var b) (.var l) (.var y) (.var w) = .ok next ∧
    Inherits signature n m n' next := by
  have powers := solved_of_mem_powerPairs within proper solved member
  have parts := listed_of_mem_powerPairs within proper member
  obtain ⟨pair, same⟩ := mem_pairsOf parts.member
  have listed := pair.subset (List.mem_cons_self ..)
  have definition := solved.tidy.definitions p.first listed
  simp only [List.forall_mem_cons, List.not_mem_nil, false_implies, implies_true, and_true] at fresh regular
  obtain ⟨freshB, freshL, freshY, freshW⟩ := fresh
  obtain ⟨regularB, regularY, regularW⟩ := regular
  have regularL := isRegular_combine sorted (solved.regular.instantiate sorted.f powers.exponent₁.regular) regularY
  generalize summed : signature.combine (p.exponent₁.instantiate m) exponent₁ = total at exponents regularL
  obtain ⟨m', extended, regular', assigned⟩ :=
    exists_assignment (n := n) [(b, base), (l, total), (y, exponent₁), (w, exponent₂)] solved.regular
    (by simp [freshB, freshL, freshY, freshW]) distinct (by simp [regularB, regularL, regularY, regularW])
  obtain ⟨valueB, valueL, valueY, valueW⟩ : m' b = base ∧ m' l = total ∧ m' y = exponent₁ ∧ m' w = exponent₂ := by
    simpa using assigned
  have kept {x : Term} (plain : IsPlain signature known n state x) := equal_of_fits signature plain.fits extended
  have leafB : IsLeaf signature (.var b) := isLeaf_var freshB.2
  have leafL : IsLeaf signature (.var l) := isLeaf_var freshL.2
  have leafY : IsLeaf signature (.var y) := isLeaf_var freshY.2
  have leafW : IsLeaf signature (.var w) := isLeaf_var freshW.2
  have leafX : IsLeaf signature p.first.lhs := ⟨isSimple_of_isVariable definition.named, definition.left⟩
  have whole := solved.holds.definitions p.first listed
  rw [Equation.HoldsModulo, parts.first.instance'] at whole
  obtain ⟨_, definition₁⟩ := define_pair (m := m') sorted (.inl rfl) leafX leafB leafL (by
    rw [Term.instantiate, Term.instantiate, valueB, valueL, ← summed]
    exact (equal_of_fits signature (proper.definitions p.first listed).1 extended).trans
      (whole.trans (.of_power base₁ (.combine_comm sorted.f _ _)))) regular'
  obtain ⟨define₂, definition₂⟩ := define_pair (m := m') sorted (.inl rfl) powers.base₁.toIsLeaf leafB leafY (by
    rw [Term.instantiate, Term.instantiate, valueB, valueY]
    exact (kept powers.base₁).trans base₁) regular'
  obtain ⟨define₃, definition₃⟩ := define_pair (m := m') sorted (.inl rfl) powers.base₂.toIsLeaf leafB leafW (by
    rw [Term.instantiate, Term.instantiate, valueB, valueW]
    exact (kept powers.base₂).trans base₂) regular'
  obtain ⟨_, definition₄⟩ := define_pair (m := m') sorted (.inr (.inr rfl)) leafL powers.exponent₁.toIsLeaf leafY (by
    rw [Term.instantiate, Term.instantiate, valueL, valueY, ← summed]
    exact .pair _ (kept powers.exponent₁).symm (.refl _)) regular'
  obtain ⟨_, definition₅⟩ := define_pair (m := m') sorted (.inr (.inr rfl)) leafL powers.exponent₂.toIsLeaf leafW (by
    rw [Term.instantiate, Term.instantiate, valueL, valueW]
    exact exponents.trans (.pair _ (kept powers.exponent₂).symm (.refl _))) regular'
  simp only [commonBase, Signature.power, Signature.combine]
  rw [define₂, define₃]
  exact ⟨_, rfl, inherits_revise proper solved grown extended regular'
    (by simpa using ⟨definition₁, definition₂, definition₃, definition₄, definition₅⟩)⟩

end Alternatives

/-- One of the alternatives inherits the solution. -/
theorem ends_alternatives_inherits (sorted : signature.OneSorted) (within : signature.Within known)
    (proper : state.Proper known session.names) (solved : state.SolvedBy signature session.names m) :
    (state.alternatives signature).Ends session (fun result after => ∀ alternatives, result = some alternatives →
      ∃ next, .ok next ∈ alternatives ∧ Inherits signature session.names m after.names next) (fun _ => False) := by
  rcases alternatives_cases signature state with ⟨none, _⟩ | ⟨p, member, step⟩
  · rw [none]
    exact ends_pure nofun
  · have powers := solved_of_mem_powerPairs within proper solved member
    have value {t : Term} (plain : IsPlain signature known session.names state t) :=
      solved.regular.instantiate sorted.f plain.regular
    have meet := EqualModulo.meet sorted (value powers.base₁) (value powers.exponent₁) (value powers.base₂)
      (value powers.exponent₂) powers.equal
    rw [step]
    refine (ends_freshNamed signature.f.range).bind ?_
    rintro z s₁ _ ⟨rfl, names₁⟩
    refine (ends_freshNamed signature.f.range).bind ?_
    rintro z' s₂ _ ⟨rfl, names₂⟩
    refine (ends_freshNamed signature.exp.domain).bind ?_
    rintro b s₃ _ ⟨rfl, names₃⟩
    refine (ends_freshNamed signature.f.range).bind ?_
    rintro l s₄ _ ⟨rfl, names₄⟩
    refine (ends_freshNamed signature.f.range).bind ?_
    rintro y s₅ _ ⟨rfl, names₅⟩
    refine (ends_freshNamed signature.f.range).bind ?_
    rintro w s₆ _ ⟨rfl, names₆⟩
    refine ends_pure fun alternatives same => ?_
    cases same
    have grown : session.names ≤ s₆.names := by omega
    cases meet with
    | first regular base exponent =>
      obtain ⟨next, found, inherits⟩ := inherits_baseIsPower sorted proper solved powers grown
        (z := ⟨⟨session.names⟩, signature.f.range⟩) (Nat.le_refl _) rfl regular base exponent
      exact ⟨next, by simp [found], inherits⟩
    | second regular base exponent =>
      obtain ⟨next, found, inherits⟩ := inherits_baseIsPower sorted proper solved powers.swapped grown
        (z := ⟨⟨s₁.names⟩, signature.f.range⟩) (by simp [names₁]) rfl regular base exponent
      exact ⟨next, by simp [found], inherits⟩
    | agree bases exponents =>
      obtain ⟨next, found, inherits⟩ := inherits_partsAgree sorted proper solved powers grown bases exponents
      exact ⟨next, by simp [found], inherits⟩
    | common regular base₁ base₂ exponent =>
      obtain ⟨next, found, inherits⟩ := inherits_commonBase sorted within proper solved grown member
        (b := ⟨⟨s₂.names⟩, signature.exp.domain⟩) (l := ⟨⟨s₃.names⟩, signature.f.range⟩)
        (y := ⟨⟨s₄.names⟩, signature.f.range⟩) (w := ⟨⟨s₅.names⟩, signature.f.range⟩)
        (by simp [sorted.expDomain]; omega) (by simp [names₃, names₄, names₅]; omega) regular base₁ base₂ exponent
      exact ⟨next, by simp [found], inherits⟩

section Validation

/-- A state passes validation, up to its size, when its definitions are compatible and acyclic. -/
theorem isLimit_of_validate {limits : Limits} {failure : Failure}
    (compatible : ∀ e₁ e₂, (e₁, e₂) ∈ state.pairs → checkCompatible signature e₁.rhs e₂.rhs = .ok ())
    (acyclic : state.checkAcyclic = .ok ()) (failed : state.validate limits signature = .error failure) :
    failure.IsLimit := by
  simp only [State.validate] at failed
  split at failed
  · cases failed
    exact ⟨_, rfl⟩
  · rcases exists_of_bind_eq_error failed with first | ⟨_, _, second⟩
    · obtain ⟨p, listed, clash⟩ := exists_of_forM_error first
      rw [compatible p.1 p.2 listed] at clash
      cases clash
    · rw [acyclic] at second
      cases second

/-- A state is acyclic when variables rank above those in the applications that define them. -/
theorem checkAcyclic_of_rank (rank : Variable → Nat)
    (ordered : ∀ e ∈ state.definitions.equations, ∀ x, e.lhs = .var x →
    e.rhs.isVariable = false → ∀ u ∈ e.rhs.vars, rank u < rank x) : state.checkAcyclic = .ok () := by
  refine checkAcyclic_eq_ok_iff.mpr fun x cycle => ?_
  have below : rank x < rank x := by
    refine Relation.TransGen.trans_induction_on (motive := fun {v w} _ => rank w < rank v) cycle ?_
      fun _ _ first later => later.trans first
    rintro v w ⟨e, listed, left, proper, occurs⟩
    exact ordered e listed v left proper w occurs
  exact Nat.lt_irrefl _ below

variable (sorted : signature.OneSorted) (solved : state.SolvedBy signature n m)
include sorted

/-- The variables of a flat application weigh less than its value. -/
theorem weight_lt_of_isFlat {h : FunctionSymbol} {args : List Term} (flat : IsFlat signature (.node h args))
    (values : RegularOn signature m) {v : Variable} (occurs : v ∈ (Term.node h args).vars) :
    weight signature (m v) < weight signature ((Term.node h args).instantiate m) := by
  obtain ⟨arg, member, inside⟩ := Term.mem_varsList.mp occurs
  have leaf := flat.leaf arg member
  have regular := flat.instance_node sorted values
  cases arg with
  | const c => simp [Term.vars] at inside
  | node g inner => cases leaf.simple
  | var w =>
    obtain rfl : v = w := by simpa [Term.vars] using inside
    rw [Term.instantiate_node]
    exact weight_lt_app sorted regular _ (List.mem_map_of_mem (f := Term.instantiate m) member)

include solved

private theorem checkAcyclic_of_solved : state.checkAcyclic = .ok () := by
  refine checkAcyclic_of_rank (fun v => weight signature (m v)) fun e listed x left proper u used => ?_
  have flat := (solved.tidy.definitions e listed).right
  have holds := solved.holds.definitions e listed
  rw [Equation.HoldsModulo, left, Term.instantiate] at holds
  rw [weight_congr sorted.toLawful holds]
  generalize e.rhs = t at flat used proper
  cases t with
  | var v => cases proper
  | const c => simp [Term.vars] at used
  | node h args => exact weight_lt_of_isFlat sorted flat solved.regular used

theorem checkCompatible_of_solved {e₁ e₂ : Equation} (listed : (e₁, e₂) ∈ state.pairs) :
    checkCompatible signature e₁.rhs e₂.rhs = .ok () := by
  have inside := (mem_pairsOf listed).1.subset
  have left := (solved.tidy.definitions e₁ (inside (by simp))).right
  have right := (solved.tidy.definitions e₂ (inside (by simp))).right
  have equal := equal_of_mem_pairs solved.holds listed
  generalize e₁.rhs = s at left equal
  generalize e₂.rhs = t at right equal
  cases s with
  | var v => cases t <;> rfl
  | const c =>
    cases t with
    | var v => rfl
    | const d => simp [checkCompatible, Term.const.inj (EqualModulo.eq_of_isSimple sorted.toLawful rfl rfl equal)]
    | node h args =>
      rw [Term.instantiate_node] at equal
      exact absurd equal.symm (EqualModulo.ne_of_isSimple sorted rfl (right.instance_node sorted solved.regular))
  | node h₁ xs =>
    have regular₁ := left.instance_node sorted solved.regular
    cases t with
    | var v => rfl
    | const c =>
      rw [Term.instantiate_node] at equal
      exact absurd equal (EqualModulo.ne_of_isSimple sorted rfl regular₁)
    | node h₂ ys =>
      have regular₂ := right.instance_node sorted solved.regular
      rw [Term.instantiate_node, Term.instantiate_node] at equal
      rcases EqualModulo.compatible sorted regular₁ regular₂ equal with rfl | ⟨rfl, rfl⟩ | ⟨rfl, rfl⟩
      · simp [checkCompatible]
      · simp [checkCompatible]
      · simp [checkCompatible]

/-- A state with a solution fails validation only by its size. -/
theorem limitReached_of_validate {limits : Limits} {failure : Failure}
    (failed : state.validate limits signature = .error failure) : failure.IsLimit :=
  isLimit_of_validate (fun _ _ listed => checkCompatible_of_solved sorted solved listed)
    (checkAcyclic_of_solved sorted solved) failed

end Validation

end Equational.ExpAC.State
