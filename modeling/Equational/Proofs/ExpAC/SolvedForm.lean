import Equational.Proofs.ExpAC.Arity
import Equational.Proofs.ExpAC.Terminal

/-! Solved form. The groups of rules run one after the other, and each can make room for another, but a
branch is settled only by a round that changes nothing, so that no rule of any group applies to what it
hands over. Two definitions of one variable then call for a rule, for a choice of alternatives or for a
failure, unless both are by combinations. -/

namespace Equational

namespace ExpAC

open Search

variable {P : Term → Prop} {setting : Setting} {signature : Signature} {problem : Problem} {interner : Interner}
  {state : State} {session : Session} {n : Nat} {e d : Equation}

private theorem checkCompatible_node_iff {h₁ h₂ : FunctionSymbol} {xs ys : List Term} :
    checkCompatible signature (.node h₁ xs) (.node h₂ ys) = .ok () ↔ h₁.id = h₂.id ∨
      (h₁.id = signature.exp.id ∧ h₂.id = signature.g.id ∨ h₁.id = signature.g.id ∧ h₂.id = signature.exp.id) := by
  simp [checkCompatible, or_iff_not_imp_left]

namespace State

/-- No variable is defined as a variable, none has two definitions but by combinations, and none is
defined through itself. -/
structure IsSolvedForm (signature : Signature) (state : State) : Prop where
  proper : ∀ e ∈ state.definitions.equations, ¬ (e.lhs.isVariable = true ∧ e.rhs.isVariable = true)
  single : ∀ x, ((state.definitionsOf x).filter (!·.rhs.isRootedAt signature.f.id)).length ≤ 1
  acyclic : ∀ x, ¬ Relation.TransGen (fun v w => ∃ e ∈ state.definitions.equations, e.lhs = .var v ∧
    w ∈ e.rhs.vars) x x

section Idle

private theorem ok_of_idle {α : Type} {outcome : Except Failure α} {value : α}
    (idle : Search.ofExcept outcome = pure value) :
    outcome = .ok value :=
  ok_of_ofExcept (congrFun idle { interner := .empty, fresh := {} })

theorem ne_var_of_idle (idle : state.Idle signature .eliminate) (listed : e ∈ state.definitions.equations)
    (named : ∃ x, e.lhs = .var x) {y : Variable} : e.rhs ≠ .var y := by
  rcases eliminate_cases state with ⟨_, absent⟩ | ⟨e', _, x', y', _, _, step⟩
  · obtain ⟨x, name⟩ := named
    exact absent e listed x y name
  · have none := step.symm.trans (ok_of_idle idle)
    obtain ⟨_, _, rest⟩ := exists_of_bind_eq_ok none
    cases rest

private theorem parts_differ {shared : Part}
    (idle : Search.ofExcept (state.mergePowers signature shared) = pure none) :
    ∀ p ∈ state.powerPairs signature, (p.part₁ shared == p.part₂ shared) = false := by
  rcases mergePowers_cases signature state shared with ⟨_, absent⟩ | ⟨_, _, _, step⟩
  · exact absent
  · obtain ⟨_, _, rest⟩ := exists_of_bind_eq_ok (step.symm.trans (ok_of_idle idle))
    cases rest

private theorem powerPairs_eq_nil (sameBase : state.Idle signature .sameBase)
    (sameExponent : state.Idle signature .sameExponent)
    (unbranched : ∃ after, state.alternatives signature session = .ok none after) :
    state.powerPairs signature = [] := by
  have bases : ∀ p ∈ state.powerPairs signature, (p.base₁ == p.base₂) = false := parts_differ sameBase
  have exponents : ∀ p ∈ state.powerPairs signature, (p.exponent₁ == p.exponent₂) = false := parts_differ sameExponent
  rcases alternatives_cases signature state with ⟨_, agree⟩ | ⟨p, _, step⟩
  · refine List.eq_nil_iff_forall_not_mem.mpr fun p member => ?_
    rcases agree p member with same | same
    · simp [bases p member] at same
    · simp [exponents p member] at same
  · have some : (state.alternatives signature).Ends session (fun result _ => result ≠ none) (fun _ => True) := by
      rw [step]
      exact (ends_freshVariable_true _).bind fun _ _ _ _ => (ends_freshVariable_true _).bind fun _ _ _ _ =>
        (ends_freshVariable_true _).bind fun _ _ _ _ => (ends_freshVariable_true _).bind fun _ _ _ _ =>
        (ends_freshVariable_true _).bind fun _ _ _ _ => (ends_freshVariable_true _).bind fun _ _ _ _ =>
          ends_pure nofun
    obtain ⟨_, ran⟩ := unbranched
    exact absurd rfl (some.of_ok ran)

private theorem gParts_eq_none_or (idle : state.Idle signature .mergePairs) (listed : (e, d) ∈ state.pairs) :
    signature.gParts e.rhs = none ∨ signature.gParts d.rhs = none := by
  rcases mergePairs_cases signature state with ⟨_, absent⟩ | ⟨_, _, _, _, _, _, _, _, _, step⟩
  · exact absent e d listed
  · obtain ⟨_, _, rest⟩ := exists_of_bind_eq_ok (step.symm.trans (ok_of_idle idle))
    obtain ⟨_, _, rest⟩ := exists_of_bind_eq_ok rest
    cases rest

private theorem isReserved_of_idle (idle : state.Idle signature .decompose) (listed : (e, d) ∈ state.pairs)
    {h₁ h₂ : FunctionSymbol}
    {xs ys : List Term} (left : e.rhs = .node h₁ xs) (right : d.rhs = .node h₂ ys) (same : h₁.id = h₂.id) :
    signature.isReserved h₁.id = true := by
  rcases decompose_cases signature state with ⟨_, absent⟩ | ⟨_, _, _, _, _, _, _, _, _, _, _, step⟩
  · exact absent e d listed h₁ xs h₂ ys left right same
  · have none := step.symm.trans (ok_of_idle idle)
    split at none
    · cases none
    · obtain ⟨_, _, rest⟩ := exists_of_bind_eq_ok none
      cases rest

private theorem parts_eq_none_or (idle : state.Idle signature .distribute)
    (listed : (e, d) ∈ state.pairs ∨ (d, e) ∈ state.pairs) :
    signature.expParts e.rhs = none ∨ signature.gParts d.rhs = none := by
  rcases distribute_cases signature state with ⟨_, absent⟩ | ⟨_, _, _, _, _, _, _, _, _, step⟩
  · exact absent e d listed
  · let session : Session := { interner := .empty, fresh := {} }
    have some : (state.distribute signature).Ends session (fun result _ => result ≠ none) (fun _ => True) := by
      rw [step]
      refine (ends_freshVariable_true _).bind fun _ _ _ _ => (ends_freshVariable_true _).bind fun _ _ _ _ => ?_
      refine ends_ofExcept (fun result applied => ?_) fun _ _ => trivial
      obtain ⟨_, _, rest⟩ := exists_of_bind_eq_ok applied
      obtain ⟨_, _, rest⟩ := exists_of_bind_eq_ok rest
      obtain ⟨_, _, rest⟩ := exists_of_bind_eq_ok rest
      cases rest
      exact nofun
    exact absurd rfl (some.of_ok (congrFun idle session))

end Idle

theorem pairwise_pairs (state : State) :
    state.definitions.equations.Pairwise fun e d => (e.lhs == d.lhs) = true → (e, d) ∈ state.pairs := by
  rw [State.pairs]
  induction state.definitions.equations with
  | nil => exact .nil
  | cons e rest ih =>
    refine List.pairwise_cons.mpr ⟨fun d member same => ?_, ih.imp fun listed same => ?_⟩
    · exact List.mem_append_left _ (List.mem_map_of_mem (List.mem_filter.mpr ⟨member, same⟩))
    · exact List.mem_append_right _ (listed same)

section Pairs

variable (merged : ∀ rule ∈ Rule.mergingAndDistributing, state.Idle signature rule)
  (unbranched : ∃ after, state.alternatives signature session = .ok none after) (listed : (e, d) ∈ state.pairs)
  (compatible : checkCompatible signature e.rhs d.rhs = .ok ()) (binary₁ : signature.isBinaryByNumber e.rhs = true)
  (binary₂ : signature.isBinaryByNumber d.rhs = true)
include merged unbranched listed compatible binary₁ binary₂

/-- Of two applications that define one variable, all others than combinations could be merged,
distributed or branched on. -/
theorem isRootedAt_of_applications {h₁ h₂ : FunctionSymbol} {xs ys : List Term} (left : e.rhs = .node h₁ xs)
    (right : d.rhs = .node h₂ ys) : e.rhs.isRootedAt signature.f.id = true ∧
    d.rhs.isRootedAt signature.f.id = true := by
  have idle (rule : Rule) (member : rule ∈ Rule.mergingAndDistributing) := merged rule member
  have power₁ := partsOf_ne_none left binary₁ (.inl rfl)
  have power₂ := partsOf_ne_none right binary₂ (.inl rfl)
  have pair₁ := partsOf_ne_none left binary₁ (.inr rfl)
  have pair₂ := partsOf_ne_none right binary₂ (.inr rfl)
  rw [left, right, checkCompatible_node_iff] at compatible
  rcases compatible with same | ⟨first, second⟩ | ⟨first, second⟩
  · have reserved := isReserved_of_idle (idle .decompose (by decide)) listed left right same
    simp only [Signature.isReserved, Bool.or_eq_true, beq_iff_eq] at reserved
    rcases reserved with (number | number) | number
    · obtain ⟨_, parts₁⟩ := Option.ne_none_iff_exists'.mp (power₁ number)
      obtain ⟨_, parts₂⟩ := Option.ne_none_iff_exists'.mp (power₂ (same ▸ number))
      have member := mem_powerPairs listed parts₁ parts₂
      rw [powerPairs_eq_nil (idle .sameBase (by decide)) (idle .sameExponent (by decide)) unbranched] at member
      cases member
    · exact ((gParts_eq_none_or (idle .mergePairs (by decide)) listed).elim (pair₁ number)
        (pair₂ (same ▸ number))).elim
    · rw [left, right]
      exact ⟨beq_iff_eq.mpr number, beq_iff_eq.mpr (same ▸ number)⟩
  · exact ((parts_eq_none_or (idle .distribute (by decide)) (.inl listed)).elim (power₁ first) (pair₂ second)).elim
  · exact ((parts_eq_none_or (idle .distribute (by decide)) (.inr listed)).elim (power₂ second) (pair₁ first)).elim

variable (eliminated : state.Idle signature .eliminate) (neat : state.Neat P n)
include eliminated neat

/-- Of two definitions of one variable, all others than by combinations could be eliminated, are at
odds, or are the same. -/
theorem isRootedAt_of_mem_pairs : e.rhs.isRootedAt signature.f.id = true ∧
    d.rhs.isRootedAt signature.f.id = true := by
  obtain ⟨pair, same⟩ := mem_pairsOf listed
  have first := pair.subset (List.mem_cons_self ..)
  have second := pair.subset (List.mem_cons_of_mem e (List.mem_singleton_self d))
  have apart : (e == d) = false := by simpa using neat.apart.sublist pair
  cases left : e.rhs with
  | var v => exact absurd left (ne_var_of_idle eliminated first (neat.definitions e first).exists_var)
  | const c =>
    cases right : d.rhs with
    | var v => exact absurd right (ne_var_of_idle eliminated second (neat.definitions d second).exists_var)
    | const c' =>
      have equal : c = c' := by simpa [left, right, checkCompatible] using compatible
      have equation : (e == d) = true := Equation.beq_iff.mpr ⟨same, by rw [left, right, equal]; exact BEq.rfl⟩
      rw [apart] at equation
      cases equation
    | node h args => simp [left, right, checkCompatible] at compatible
  | node h₁ xs =>
    cases right : d.rhs with
    | var v => exact absurd right (ne_var_of_idle eliminated second (neat.definitions d second).exists_var)
    | const c => simp [left, right, checkCompatible] at compatible
    | node h₂ ys =>
      rw [← left, ← right]
      exact isRootedAt_of_applications merged unbranched listed compatible binary₁ binary₂ left right

end Pairs

private theorem length_definitionsOf_le_one {id : FunctionId}
    (rooted : ∀ e d, (e, d) ∈ state.pairs → e.rhs.isRootedAt id = true) (x : Variable) :
    ((state.definitionsOf x).filter (!·.rhs.isRootedAt id)).length ≤ 1 := by
  have kept : ((state.definitionsOf x).filter (!·.rhs.isRootedAt id)).Sublist state.definitions.equations :=
    List.filter_sublist.trans List.filter_sublist
  have each {e : Equation} (member : e ∈ (state.definitionsOf x).filter (!·.rhs.isRootedAt id)) :
      e.lhs = .var x ∧ e.rhs.isRootedAt id = false := by
    obtain ⟨defines, other⟩ := List.mem_filter.mp member
    exact ⟨AC.asVariable_eq_some (List.mem_filter.mp defines).2, by simpa using other⟩
  generalize (state.definitionsOf x).filter (!·.rhs.isRootedAt id) = remaining at kept each
  match remaining with
  | [] => exact Nat.zero_le 1
  | [_] => exact Nat.le_refl 1
  | e :: d :: rest =>
    obtain ⟨left, other⟩ := each (List.mem_cons_self ..)
    obtain ⟨right, _⟩ := each (List.mem_cons_of_mem e (List.mem_cons_self ..))
    have listed := (List.pairwise_cons.mp ((pairwise_pairs state).sublist kept)).1 d (List.mem_cons_self ..)
    have impossible := rooted e d (listed (by rw [left, right]; exact BEq.rfl))
    rw [other] at impossible
    cases impossible

/-- A valid state without alternatives, to which no rule applies unless it combines exponents, is in solved form. -/
theorem isSolvedForm_of_idle {limits : Limits}
    (merged : ∀ rule ∈ Rule.mergingAndDistributing, state.Idle signature rule)
    (eliminated : state.Idle signature .eliminate)
    (unbranched : ∃ after, state.alternatives signature session = .ok none after)
    (valid : state.validate limits signature = .ok ()) (neat : state.Neat (signature.isBinaryByNumber · = true) n) :
    state.IsSolvedForm signature := by
  obtain ⟨compatible, acyclic⟩ := of_validate valid
  have proper : ∀ e ∈ state.definitions.equations, ¬ (e.lhs.isVariable = true ∧ e.rhs.isVariable = true) := by
    rintro e listed ⟨left, right⟩
    obtain ⟨y, shape⟩ := Term.exists_of_isVariable right
    exact ne_var_of_idle eliminated listed (Term.exists_of_isVariable left) shape
  refine ⟨proper, length_definitionsOf_le_one fun e d listed => ?_, fun x cycle => ?_⟩
  · have inside := (mem_pairsOf listed).1.subset
    have left := (neat.definitions e (inside (by simp))).right
    have right := (neat.definitions d (inside (by simp))).right
    exact (isRootedAt_of_mem_pairs merged unbranched listed (compatible _ listed) left right eliminated neat).1
  · -- The check leaves definitions as variables out, of which there are none.
    refine checkAcyclic_eq_ok_iff.mp acyclic x (Relation.TransGen.mono ?_ _ _ cycle)
    rintro v w ⟨e, listed, left, occurs⟩
    have application : e.rhs.isVariable = false := by
      by_contra variable'
      exact proper e listed ⟨by rw [left]; rfl, Bool.not_eq_false _ ▸ variable'⟩
    exact ⟨e, listed, left, application, occurs⟩

end State

section Runs

variable (interned : ∀ v ∈ problem.vars, v.id.index < interner.variableCount)
include interned

/-- A branch hands over a state to which no rule applies any more, so what it does last changes nothing
but passes validation. -/
theorem HandedOver.terminal (handed : HandedOver setting problem interner state session) :
    state.validate setting.limits setting.signature = .ok () ∧
    ∃ during, Terminal setting problem interner state during := by
  have binds {state next : State} {session : Session} (reached : Reached setting problem interner state session)
      (applied : state.eliminate = .ok (some next)) : state.solved.size < next.solved.size := by
    have flat := reached.flat interned (fun _ _ => ⟨trivial, trivial⟩) steady_true
    exact size_lt_eliminate flat.neat flat.proper.usable applied
  cases handed with
  | @mk _ settled _ _ during before _ reached settles unbranched eliminates =>
    obtain ⟨arrived, merged, eliminated⟩ := ((invariant_reached ..).ends_settle_idle binds reached _).of_ok settles
    have changes : (exhaust setting [.eliminate] settled).Ends before
        (fun last _ => last = settled ∧ settled.validate setting.limits setting.signature = .ok ())
        (fun _ => True) := by
      rw [exhaust_of_idle (List.forall_mem_singleton.mpr eliminated)]
      exact ends_ofExcept_bind (fun _ valid => ends_pure ⟨rfl, valid⟩) fun _ _ => trivial
    obtain ⟨rfl, valid⟩ := changes.of_ok eliminates
    exact ⟨valid, during, arrived, merged, eliminated, before, unbranched⟩

private theorem Terminal.isInSolvedForm (terminal : Terminal setting problem interner state session)
    (valid : state.validate setting.limits setting.signature = .ok ())
    (binary : EverySide (setting.signature.isBinaryByNumber · = true) problem.equations) :
    state.IsSolvedForm setting.signature := by
  have flat := terminal.reached.flat interned binary (steady_of_byArity (byArity_isBinaryByNumber _))
  exact State.isSolvedForm_of_idle terminal.merged terminal.eliminated terminal.unbranched valid flat.neat

/-- Whatever the signature and the limits, a branch of a run on a problem over known variables whose
powers and pairs are of two terms hands over states in solved form only. -/
theorem HandedOver.isSolvedForm (binary : EverySide (setting.signature.isBinaryByNumber · = true) problem.equations)
    (handed : HandedOver setting problem interner state session) : state.IsSolvedForm setting.signature := by
  obtain ⟨valid, _, terminal⟩ := handed.terminal interned
  exact terminal.isInSolvedForm interned valid binary

/-- Where symbols go by their numbers, the powers and pairs are those of the symbols themselves. -/
theorem HandedOver.isSolvedForm_of_consistent
    (consistent : Consistent (· ∈ setting.signature.symbols ++ problem.equations.flatMap Equation.symbols))
    (binary : EverySide (setting.signature.isBinary · = true) problem.equations)
    (handed : HandedOver setting problem interner state session) : state.IsSolvedForm setting.signature := by
  have spelled : EverySide (Term.Over (· ∈ setting.signature.symbols ++ problem.equations.flatMap Equation.symbols))
      problem.equations :=
    everySide_over_symbols fun h occurs => List.mem_append_right _ occurs
  have byNumber {t : Term} (spelled : t.Over _) (binary : setting.signature.isBinary t = true) :=
    isBinaryByNumber_of_isBinary consistent (by simp [Signature.symbols]) (by simp [Signature.symbols]) spelled binary
  obtain ⟨valid, _, terminal⟩ := handed.terminal interned
  exact terminal.isInSolvedForm interned valid fun e member =>
    ⟨byNumber (spelled e member).1 (binary e member).1, byNumber (spelled e member).2 (binary e member).2⟩

end Runs

end ExpAC

/-- Two sums and two powers, `x = f(y, z)`, `x = f(z, w)`, `y = exp(w, z)` and `y = exp(w, v)`. -/
def Problem.twoSums (x y z w v : Variable) : Problem :=
  let exp := ExpAC.Signature.binary.exp
  let f := ExpAC.Signature.binary.f
  ⟨[⟨.var x, .node f [.var y, .var z]⟩, ⟨.var x, .node f [.var z, .var w]⟩, ⟨.var y, .node exp [.var w, .var z]⟩,
    ⟨.var y, .node exp [.var w, .var v]⟩]⟩

open ExpAC in
theorem ExpAC.HandedOver.isSolvedForm_twoSums :
    let x : Variable := ⟨⟨0⟩, .default⟩
    let y : Variable := ⟨⟨1⟩, .default⟩
    let z : Variable := ⟨⟨2⟩, .default⟩
    let w : Variable := ⟨⟨3⟩, .default⟩
    let v : Variable := ⟨⟨4⟩, .default⟩
    let problem : Problem := .twoSums x y z w v
    let interner : Interner := { Interner.empty with variableTable := ⟨["x", "y", "z", "w", "v"]⟩ }
    ∃ state session, HandedOver ⟨{}, .binary, problem.vars⟩ problem interner state session ∧
      (state.definitionsOf x).length = 2 ∧ state.IsSolvedForm .binary := by
  intro x y z w v problem interner
  let setting : Setting := ⟨{}, .binary, problem.vars⟩
  let start : Session := { interner, fresh := {} }
  let settled : State := {
    definitions :=
    ⟨[⟨.var x, .node Signature.binary.f [.var y, .var v]⟩, ⟨.var x, .node Signature.binary.f [.var v, .var w]⟩,
      ⟨.var y, .node Signature.binary.exp [.var w, .var v]⟩]⟩
    solved := { bindings := [(z, .var v)], distinct := by decide } }
  let after : Session := { start with steps := 2 }
  have purified : purify problem start = .ok { definitions := problem } start := by cbv
  have settles : settle setting (rounds setting) { definitions := problem } start = .ok settled after := by cbv
  have unbranched : settled.alternatives setting.signature after = .ok none after := by cbv
  have eliminates : exhaust setting [.eliminate] settled after = .ok settled after := by cbv
  have handed : HandedOver setting problem interner settled after :=
    ⟨.start purified, settles, unbranched, eliminates⟩
  exact ⟨settled, after, handed, by decide, handed.isSolvedForm (by decide) (by decide)⟩

end Equational
