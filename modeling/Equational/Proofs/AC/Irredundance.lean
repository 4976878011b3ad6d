import Equational.Proofs.AC.Completeness

/-! No combination is an instance of another. Under an instance every chosen solution vector is a
sum of vectors of the other choice, so by minimality it is one of them; and as nothing stands
for an empty combination, the other choice has no vector more. Two choices that are instances
of one another at all are therefore the same. -/

namespace Equational

namespace Term

/-- Every application of `f` in the term has an argument. -/
def hasArguments (f : FunctionSymbol) (t : Term) : Bool :=
  t.everyNode fun g args => g != f || !args.isEmpty

variable {f : FunctionSymbol}

private theorem hasArguments_node {g : FunctionSymbol} {args : List Term} :
    (node g args).hasArguments f = true ↔ (g = f → args ≠ []) ∧ ∀ arg ∈ args, arg.hasArguments f = true := by
  rw [hasArguments, everyNode_node]
  refine and_congr_left ?_
  intro _
  simp [Classical.or_iff_not_imp_left]

private theorem bag_ne_zero (laws : f.theory = .associativeCommutative) {t : Term} (some : t.hasArguments f = true) :
    bag f t ≠ 0 := by
  induction t with
  | var v =>
    rw [bag_of_not_rooted (by simp [head?])]
    exact Multiset.singleton_ne_zero _
  | const c =>
    rw [bag_of_not_rooted (by simp [head?])]
    exact Multiset.singleton_ne_zero _
  | node g args ih =>
    by_cases rooted : g = f
    · subst rooted
      obtain ⟨nonempty, each⟩ := hasArguments_node.mp some
      obtain ⟨arg, rest, rfl⟩ := List.exists_cons_of_ne_nil (nonempty rfl)
      rw [bag_node laws, List.map_cons, List.sum_cons]
      intro zero
      exact ih arg (List.mem_cons_self ..) (each arg (List.mem_cons_self ..)) (add_eq_zero.mp zero).1
    · rw [bag_of_not_rooted (by simpa [head?] using rooted)]
      exact Multiset.singleton_ne_zero _

end Term

namespace AC

open HomogeneousSystem

private theorem mem_sum_map {ι α : Type} {s : α} {l : List ι} {bags : ι → Multiset α} :
    s ∈ (l.map bags).sum ↔ ∃ i ∈ l, s ∈ bags i := by
  induction l with
  | nil => simp
  | cons i l ih => rw [List.map_cons, List.sum_cons, Multiset.mem_add, ih, List.exists_mem_cons_iff]

section Choices

variable {α : Type} {promising : List α → List α → Bool} {rest chosen : List α}

private theorem exists_sublist_of_mem_choices {final : List α} (member : final ∈ choices promising rest chosen) :
    ∃ selection : List α, selection.Sublist rest.reverse ∧ final = selection ++ chosen := by
  induction rest generalizing chosen with
  | nil =>
    simp only [choices] at member
    split at member
    · exact ⟨[], List.nil_sublist _, List.mem_singleton.mp member⟩
    · cases member
  | cons x rest ih =>
    simp only [choices] at member
    split at member
    · rw [List.reverse_cons]
      rcases List.mem_append.mp member with without | taken
      · obtain ⟨selection, part, rfl⟩ := ih without
        exact ⟨selection, part.trans (List.sublist_append_left ..), rfl⟩
      · obtain ⟨selection, part, rfl⟩ := ih taken
        exact ⟨selection ++ [x], part.append (List.Sublist.refl [x]), by simp⟩
    · cases member

private theorem nodup_choices (distinct : (rest.reverse ++ chosen).Nodup) :
    (choices promising rest chosen).Nodup := by
  induction rest generalizing chosen with
  | nil =>
    simp only [choices]
    split
    · exact List.nodup_singleton _
    · exact List.nodup_nil
  | cons x rest ih =>
    have order : (x :: rest).reverse ++ chosen = rest.reverse ++ x :: chosen := by simp
    rw [order] at distinct
    have part : (rest.reverse ++ chosen).Sublist (rest.reverse ++ x :: chosen) :=
      (List.Sublist.refl _).append (List.sublist_cons_self x chosen)
    simp only [choices]
    split
    · refine List.nodup_append.mpr ⟨ih (distinct.sublist part), ih distinct, ?_⟩
      intro final without other taken same
      subst same
      obtain ⟨selection, _, shape⟩ := exists_sublist_of_mem_choices taken
      have present : x ∈ final := by simp [shape]
      have absent : x ∉ rest.reverse ++ chosen := by
        have apart := List.nodup_middle.mp distinct
        exact (List.nodup_cons.mp apart).1
      obtain ⟨selection, among, rfl⟩ := exists_sublist_of_mem_choices without
      exact absent ((among.append (List.Sublist.refl chosen)).subset present)
    · exact List.nodup_nil

end Choices

private theorem received_of_assemble {f : FunctionSymbol} {chosen : List Share} {atoms : List Term} {column : Nat}
    {θ θ' : Substitution} (assembled : assemble f chosen column atoms θ = some θ') :
    ∀ p ∈ atoms.zipIdx column, received chosen p.2 ≠ [] ∧
      (p.1.isVariable = false → (received chosen p.2).length = 1) := by
  induction atoms generalizing column θ with
  | nil => simp
  | cons atom rest ih =>
    rw [List.zipIdx_cons, List.forall_mem_cons]
    by_cases proper : atom.isVariable = true
    · obtain ⟨v, rfl⟩ := Term.exists_of_isVariable proper
      by_cases none : received chosen column = []
      · simp [assemble, none] at assembled
      · rw [assemble_var θ none, Option.bind_eq_some_iff] at assembled
        obtain ⟨θ₁, _, later⟩ := assembled
        exact ⟨⟨none, by simp [Term.isVariable]⟩, ih later⟩
    · rw [Bool.not_eq_true] at proper
      have single : (received chosen column).length = 1 := by
        by_contra other
        cases atom with
        | var v => cases proper
        | const c | node g args => simp [assemble, other] at assembled
      exact ⟨⟨List.ne_nil_of_length_pos (single ▸ Nat.one_pos), fun _ => single⟩,
        ih (assemble_of_assemble_cons proper assembled)⟩

/-- The shares were drawn for distinct minimal solutions that can be used. -/
structure Issued (f : FunctionSymbol) (equations : List Equation) (n : Nat) (shares : List Share) : Prop where
  atomic : Atomic f (activeAtoms f equations)
  drawn : ∃ vectors, vectors.Nodup ∧ Drawn f (activeAtoms f equations) n vectors shares
  minimal : ∀ x ∈ shares, ∃ v : Fin (activeAtoms f equations).length → Nat, x.vector = List.ofFn v ∧
    Minimal (Solves (rows f equations)) v
  usable : ∀ x ∈ shares, isUsable (activeAtoms f equations) x.vector = true

section Issued

variable {f : FunctionSymbol} {equations : List Equation} {n : Nat} {shares : List Share}

private theorem Ready.issued {limits : Limits} {vectors : List (List Nat)} (ready : Ready f equations)
    (solved : solutionVectors limits f equations (activeAtoms f equations) = .ok vectors)
    (drawn : Drawn f (activeAtoms f equations) n vectors shares) : Issued f equations n shares := by
  obtain ⟨distinct, lengths, vectors_iff⟩ := mem_solutionVectors solved
  have listed (x : Share) (member : x ∈ shares) :
      ∃ v : Fin (activeAtoms f equations).length → Nat, x.vector = List.ofFn v ∧
      Minimal (Solves (rows f equations)) v ∧ isUsable (activeAtoms f equations) (List.ofFn v) = true := by
    have inside : x.vector ∈ vectors := drawn.map_vector ▸ List.mem_map_of_mem member
    obtain ⟨v, vector⟩ := exists_ofFn (lengths _ inside)
    exact ⟨v, vector, (vectors_iff v).mp (vector ▸ inside)⟩
  refine ⟨ready.atomic, ⟨vectors, distinct, drawn⟩, fun x member => ?_, fun x member => ?_⟩
  · obtain ⟨v, vector, minimal, _⟩ := listed x member
    exact ⟨v, vector, minimal⟩
  · obtain ⟨v, vector, _, usable⟩ := listed x member
    exact vector ▸ usable

variable (issued : Issued f equations n shares)
include issued

private theorem Issued.nodup : shares.Nodup := by
  obtain ⟨vectors, distinct, drawn⟩ := issued.drawn
  rw [← drawn.map_vector] at distinct
  exact distinct.of_map _

private theorem Issued.exists_copies {x : Share} (member : x ∈ shares) :
    ∃ j : Fin (activeAtoms f equations).length, 0 < x.copies j := by
  obtain ⟨v, vector, minimal⟩ := issued.minimal x member
  obtain ⟨j, other⟩ := Function.ne_iff.mp minimal.1.1
  exact ⟨j, copies_ofFn vector j ▸ Nat.pos_of_ne_zero other⟩

private theorem Issued.eq_of_copies_le {x y : Share} (first : x ∈ shares) (second : y ∈ shares)
    (below : ∀ j : Fin (activeAtoms f equations).length, y.copies j ≤ x.copies j) : x = y := by
  obtain ⟨u, left, minimal⟩ := issued.minimal x first
  obtain ⟨v, right, solves, _⟩ := issued.minimal y second
  have order : v ≤ u := by
    intro j
    rw [← copies_ofFn left, ← copies_ofFn right]
    exact below j
  have same : u = v := le_antisymm (minimal.2 solves order) order
  obtain ⟨vectors, distinct, drawn⟩ := issued.drawn
  rw [← drawn.map_vector] at distinct
  exact List.inj_on_of_nodup_map distinct first second (by rw [left, right, same])

private theorem Issued.term_eq {x : Share} (member : x ∈ shares) {j : Fin (activeAtoms f equations).length}
    (plain : ((activeAtoms f equations).get j).isVariable = false) (serves : 0 < x.copies j) :
    x.term = ((activeAtoms f equations).get j) := by
  obtain ⟨v, vector, _⟩ := issued.minimal x member
  have listed : (((activeAtoms f equations).get j), v j) ∈ constantShares (activeAtoms f equations) x.vector := by
    rw [copies_ofFn vector] at serves
    rw [vector, constantShares_ofFn]
    have passes : (!((activeAtoms f equations).get j).isVariable && decide (0 < v j)) =
        true := by rw [plain, decide_eq_true serves]; rfl
    exact List.mem_map.mpr ⟨j, List.mem_filter.mpr ⟨List.mem_finRange j, passes⟩, rfl⟩
  have usable := issued.usable x member
  obtain ⟨vectors, _, drawn⟩ := issued.drawn
  rcases drawn.term x member with ⟨count, others, found⟩ | ⟨found, _⟩
  · rw [found] at listed
    simp only [isUsable, found] at usable
    cases others with
    | nil => exact (congrArg Prod.fst (List.mem_singleton.mp listed)).symm
    | cons p others => cases usable
  · rw [found] at listed
    cases listed

private theorem Issued.term_or {x : Share} (member : x ∈ shares) : (∃ v, x.term = .var v) ∨
    ∃ j : Fin (activeAtoms f equations).length, ((activeAtoms f equations).get j).isVariable = false ∧
    0 < x.copies j ∧
      x.term = ((activeAtoms f equations).get j) := by
  obtain ⟨vectors, _, drawn⟩ := issued.drawn
  rcases drawn.term x member with ⟨count, others, found⟩ | ⟨_, k, _, fresh⟩
  · obtain ⟨v, vector, _⟩ := issued.minimal x member
    have listed : (x.term, count) ∈ constantShares (activeAtoms f equations) x.vector := by simp [found]
    rw [vector, constantShares_ofFn] at listed
    obtain ⟨j, passes, pair⟩ := List.mem_map.mp listed
    simp only [List.mem_filter, Bool.and_eq_true, Bool.not_eq_true', decide_eq_true_eq] at passes
    exact .inr ⟨j, passes.2.1, copies_ofFn vector j ▸ passes.2.2, (congrArg Prod.fst pair).symm⟩
  · exact .inl ⟨_, fresh⟩

private theorem Issued.bag_term {x : Share} (member : x ∈ shares) : Term.bag f x.term = {x.term.shape} := by
  refine Term.bag_of_not_rooted ?_
  rcases issued.term_or member with ⟨v, fresh⟩ | ⟨j, plain, _, constant⟩
  · simp [fresh, Term.head?]
  · rw [constant]
    exact (issued.atomic.column plain).2.2

/-- A choice of shares from which a substitution was assembled. -/
structure Built (f : FunctionSymbol) (equations : List Equation) (shares chosen : List Share) (θ : Substitution) :
    Prop where
  part : chosen.Sublist shares
  suffices' : Suffices (activeAtoms f equations) chosen
  assembled : Assembled f (activeAtoms f equations) chosen θ

private theorem Issued.built (laws : f.theory = .associativeCommutative) (sorts : f.range = f.domain)
    {chosen : List Share} {θ : Substitution}
    (among : chosen ∈ choices (isPromising (activeAtoms f equations)) shares.reverse [])
    (assembled : assemble f chosen 0 (activeAtoms f equations) .empty = some θ) :
    Built f equations shares chosen θ := by
  obtain ⟨selection, part, rfl⟩ := exists_sublist_of_mem_choices among
  rw [List.reverse_reverse] at part
  rw [List.append_nil] at assembled ⊢
  have received' (j : Fin (activeAtoms f equations).length) :=
    received_of_assemble assembled _ (List.mk_mem_zipIdx_iff_getElem?.mpr (List.getElem?_eq_getElem j.isLt))
  have enough : Suffices (activeAtoms f equations) selection := by
    constructor
    · intro j
      obtain ⟨t, member⟩ := List.exists_mem_of_ne_nil _ (received' j).1
      obtain ⟨x, inside, copies⟩ := List.mem_flatMap.mp member
      exact ⟨x, inside, Nat.pos_of_ne_zero (List.mem_replicate.mp copies).1⟩
    · intro j plain
      obtain ⟨t, single⟩ := List.length_eq_one_iff.mp ((received' j).2 plain)
      have sum := sum_received (fun t => ({t} : Multiset Term)) selection j
      rw [single, List.map_singleton, List.sum_singleton] at sum
      obtain ⟨before, x, after, shape, once, _, idle⟩ := exists_of_sum_eq_singleton sum.symm
      have member : x ∈ shares := part.subset (by simp [shape])
      exact ⟨before, x, after, shape, once, issued.term_eq member plain (by omega), idle⟩
  obtain ⟨drawnFor, _, drawn⟩ := issued.drawn
  obtain ⟨θ', again⟩ := exists_assembled laws sorts issued.atomic enough
    fun x member => issued.atomic.of_mem_shares drawn x (part.subset member)
  have same : θ' = θ := by
    have both := again.assembled
    rw [assembled] at both
    exact (Option.some.inj both).symm
  exact ⟨part, enough, same ▸ again⟩

private theorem Built.eq_of_term {chosen : List Share} {θ : Substitution} (built : Built f equations shares chosen θ)
    {x y : Share} (first : x ∈ chosen) (second : y ∈ chosen) (same : x.term.shape = y.term.shape) : x = y := by
  have kind (t : Term) : t.shape.isVariable = t.isVariable := by cases t <;> rfl
  have both := congrArg Term.isVariable same
  rw [kind, kind] at both
  rcases issued.term_or (built.part.subset first) with ⟨v, left⟩ | ⟨i, plain, serves, left⟩
  · obtain ⟨w, right⟩ := Term.exists_of_isVariable (t := y.term) (by rw [← both, left]; rfl)
    obtain ⟨_, _, drawn⟩ := issued.drawn
    have equal : w = v := by simpa [left, right, Term.shape] using same.symm
    exact drawn.eq_of_term (built.part.subset first) (built.part.subset second) left (equal ▸ right)
  · rcases issued.term_or (built.part.subset second) with ⟨w, right⟩ | ⟨j, _, serves', right⟩
    · rw [left, plain, right] at both
      cases both
    · rw [left, right] at same
      obtain rfl := issued.atomic.eq_of_shape same
      obtain ⟨before, z, after, shape, _, _, idle⟩ := built.suffices'.once i plain
      rw [eq_of_idle shape idle first (Nat.ne_of_gt serves), eq_of_idle shape idle second (Nat.ne_of_gt serves')]

private theorem Built.count_given [DecidableEq Term] {chosen : List Share} {θ : Substitution}
    (built : Built f equations shares chosen θ) {x : Share} (member : x ∈ chosen) (column : Nat) :
    (chosen.map fun y => y.copies column • Term.bag f y.term).sum.count x.term.shape = x.copies column := by
  have each : (chosen.map fun y => (y.copies column • Term.bag f y.term).count x.term.shape) =
      chosen.map fun y => if y.term.shape = x.term.shape then y.copies column else 0 := by
    refine List.map_congr_left ?_
    intro y inside
    rw [Multiset.count_nsmul, issued.bag_term (built.part.subset inside), Multiset.count_singleton]
    by_cases same : y.term.shape = x.term.shape
    · rw [if_pos same, if_pos same.symm, mul_one]
    · rw [if_neg same, if_neg (Ne.symm same), mul_zero]
  have alone : chosen.Pairwise fun a b => a.term.shape = x.term.shape → ¬ b.term.shape = x.term.shape := by
    refine (issued.nodup.sublist built.part).pairwise_of_forall_ne ?_
    intro a inside b inside' different left right
    exact different (built.eq_of_term issued inside inside' (left.trans right.symm))
  rw [count_sum_map, each]
  exact List.sum_map_ite_of_pairwise alone member rfl _

end Issued

section Instance

variable {f : FunctionSymbol} {equations : List Equation} {n : Nat} {shares chosen chosen' : List Share}
  {θ θ' : Substitution} {m : Variable → Term}
  (laws : f.theory = .associativeCommutative) (issued : Issued f equations n shares)
  (built : Built f equations shares chosen θ) (built' : Built f equations shares chosen' θ')
  (equal : ∀ v, .var v ∈ activeAtoms f equations → (θ.image v).shape = ((θ'.image v).instantiate m).shape)
include laws issued built built' equal

private theorem given_eq (j : Fin (activeAtoms f equations).length) :
    (chosen.map fun x => x.copies j • Term.bag f x.term).sum =
      (chosen'.map fun y => y.copies j • Term.bag f (y.term.instantiate m)).sum := by
  have atoms : (((activeAtoms f equations).get j).instantiate θ.image).shape =
      ((((activeAtoms f equations).get j).instantiate θ'.image).instantiate m).shape := by
    cases plain : ((activeAtoms f equations).get j).isVariable with
    | true =>
      obtain ⟨v, same⟩ := Term.exists_of_isVariable plain
      rw [same]
      exact equal v (same ▸ List.getElem_mem j.isLt)
    | false =>
      rw [issued.atomic.shape_instantiate plain,
        Term.instantiate_congr (issued.atomic.shape_instantiate plain θ'.image),
        issued.atomic.shape_instantiate plain]
  rw [← sum_received, ← Term.bag_combined laws, ← Term.bag_congr (built.assembled.value j), Term.bag_congr atoms,
    Term.bag_congr (Term.instantiate_congr (built'.assembled.value j) m), Term.bag_instantiate_combined laws,
    sum_received fun t => Term.bag f (t.instantiate m)]

private theorem eq_of_mem_bag {x y : Share} (member : x ∈ chosen) (member' : y ∈ chosen')
    (part : x.term.shape ∈ Term.bag f (y.term.instantiate m)) : x = y := by
  classical
  refine issued.eq_of_copies_le (built.part.subset member) (built'.part.subset member') ?_
  intro j
  have count := built.count_given issued member j
  rw [given_eq laws issued built built' equal j, count_sum_map] at count
  have among : (y.copies j • Term.bag f (y.term.instantiate m)).count x.term.shape ∈
      chosen'.map fun y => (y.copies j • Term.bag f (y.term.instantiate m)).count x.term.shape :=
    List.mem_map_of_mem member'
  have below := List.single_le_sum (fun _ _ => Nat.zero_le _) _ among
  rw [count, Multiset.count_nsmul] at below
  exact (Nat.le_mul_of_pos_right _ (Multiset.count_pos.mpr part)).trans below

private theorem subset_of_instance : chosen ⊆ chosen' := by
  classical
  intro x member
  obtain ⟨j, serves⟩ := issued.exists_copies (built.part.subset member)
  have count := built.count_given issued member j
  have present := Multiset.count_pos.mp (count ▸ serves)
  rw [given_eq laws issued built built' equal j] at present
  obtain ⟨y, member', part⟩ := mem_sum_map.mp present
  rw [eq_of_mem_bag laws issued built built' equal member member' (Multiset.mem_of_mem_nsmul part)]
  exact member'

/-- When nothing that is handed out stands for nothing, the choices are the same. -/
theorem eq_of_instance (some : ∀ y ∈ chosen', Term.bag f (y.term.instantiate m) ≠ 0) : chosen = chosen' := by
  have all := subset_of_instance laws issued built built' equal
  have none : chosen' ⊆ chosen := by
    intro y member'
    obtain ⟨j, serves⟩ := issued.exists_copies (built'.part.subset member')
    obtain ⟨s, part⟩ := Multiset.exists_mem_of_ne_zero (some y member')
    have present : s ∈ (chosen'.map fun y => y.copies j • Term.bag f (y.term.instantiate m)).sum :=
      mem_sum_map.mpr ⟨y, member', Multiset.mem_nsmul.mpr ⟨Nat.ne_of_gt serves, part⟩⟩
    rw [← given_eq laws issued built built' equal j] at present
    obtain ⟨x, member, handed⟩ := mem_sum_map.mp present
    have label := Multiset.mem_of_mem_nsmul handed
    rw [issued.bag_term (built.part.subset member), Multiset.mem_singleton] at label
    rw [← eq_of_mem_bag laws issued built built' equal member member' (label ▸ part)]
    exact member
  have distinct := issued.nodup
  refine (distinct.perm_iff_eq_of_sublist built.part built'.part).mp ?_
  exact (List.perm_ext_iff_of_nodup (distinct.sublist built.part) (distinct.sublist built'.part)).mpr
    fun x => ⟨fun member => all member, fun member => none member⟩

end Instance

/-- The first substitution is, on the variables, an instance of the second by terms without empty
combinations. -/
def IsInstance (f : FunctionSymbol) (vars : List Variable) (σ τ : Substitution) : Prop :=
  ∃ ρ : Substitution, (∀ t ∈ ρ.range, t.hasArguments f = true) ∧
    ∀ v ∈ vars, (σ.apply (.var v) == ρ.apply (τ.apply (.var v))) = true

section Unifiers

variable {f : FunctionSymbol} {equations : List Equation} {base : Substitution} {limits : Limits} {n : Nat}

private theorem Based.of_mem_activeAtoms (based : Based equations f base) {v : Variable}
    (active : .var v ∈ activeAtoms f (rootedUnder f base equations)) :
    base.image v = .var v ∧ v ∈ equations.flatMap Equation.vars := by
  obtain ⟨separate, scope, _⟩ := solved_of_unifyAll based.solved
  have known {e : Equation} (member : e ∈ unrooted f equations) : e ∈ equations := List.mem_of_mem_filter member
  have free {w : Variable} {t : Term} (inScope : ∀ u ∈ t.vars, u ∈ equations.flatMap Equation.vars)
      (occurs : w ∈ (base.apply t).vars) :
      w ∉ base.domain ∧ w ∈ equations.flatMap Equation.vars := by
    obtain ⟨u, origin, inside⟩ := Substitution.mem_vars_apply occurs
    rcases base.image_mem_or u with bound | ⟨unbound, same⟩
    · have range := Substitution.mem_range_of_mem bound
      obtain ⟨e, member, deeper⟩ := List.mem_flatMap.mp (scope _ range w inside)
      exact ⟨separate _ range w inside, List.mem_flatMap.mpr ⟨e, known member, deeper⟩⟩
    · rw [same] at inside
      obtain rfl : w = u := by simpa [Term.vars] using inside
      exact ⟨unbound, inScope w origin⟩
  have hereditary {t : Term} {w : Variable} (member : .var w ∈ members f t) : w ∈ t.vars := by
    simp only [members] at member
    split at member
    · cases t with
      | var u | const c => cases member
      | node g args => exact Term.mem_varsList.mpr ⟨_, member, by simp [Term.vars]⟩
    · rw [← List.mem_singleton.mp member]
      simp [Term.vars]
  obtain ⟨e, member, occurs⟩ := (mem_activeAtoms active).1
  obtain ⟨origin, inside, _, rfl, _⟩ := exists_of_mem_rootedUnder member
  have sides : v ∈ (base.apply origin.lhs).vars ∨ v ∈ (base.apply origin.rhs).vars :=
    (List.mem_append.mp occurs).imp hereditary hereditary
  have result : v ∉ base.domain ∧ v ∈ equations.flatMap Equation.vars := by
    rcases sides with left | right
    · exact free (fun u deeper => List.mem_flatMap.mpr ⟨origin, inside, List.mem_append_left _ deeper⟩) left
    · exact free (fun u deeper => List.mem_flatMap.mpr ⟨origin, inside, List.mem_append_right _ deeper⟩) right
  exact ⟨Substitution.image_of_not_mem result.1, result.2⟩

variable {vars : List Variable} (known : ∀ v ∈ equations.flatMap Equation.vars, v ∈ vars)
include known

private theorem Based.equal_of_instance (based : Based equations f base) {θ θ' ρ : Substitution}
    (canonical : ∀ t ∈ (base.compose θ').range, t.isCanonical = true)
    (general : ∀ v ∈ vars, ((base.compose θ).apply (.var v) == ρ.apply ((base.compose θ').apply (.var v))) = true) :
    ∀ v, .var v ∈ activeAtoms f (rootedUnder f base equations) →
      (θ.image v).shape = ((θ'.image v).instantiate ρ.image).shape := by
  intro v active
  obtain ⟨free, occurs⟩ := based.of_mem_activeAtoms active
  have value (τ : Substitution) : ((base.compose τ).image v).shape = (τ.image v).shape := by
    rw [Substitution.shape_image_compose, free, Substitution.apply_var]
  have same := Term.beq_iff_shape.mp (general v (known v occurs))
  rw [Substitution.apply_var, Substitution.apply_var, value,
    Substitution.shape_apply _ (Substitution.image_hereditary Term.hereditary_isCanonical canonical v)] at same
  exact same.trans (Term.instantiate_congr (value θ') _)

variable (distinguished : Distinguished f equations)
include distinguished

/-- No combination is an instance of another. -/
theorem Prepared.pairwise {shares : List Share} (prepared : Prepared limits n equations f base shares) :
    (combinations f base (rootedUnder f base equations) shares).Pairwise fun σ τ =>
      ¬ IsInstance f vars σ τ ∧ ¬ IsInstance f vars τ σ := by
  have canonical := (Found.combined prepared).isCanonical distinguished.canonical
  obtain ⟨based, some, checked, vectors, solved, drawn⟩ := prepared
  have ready := based.ready distinguished checked
  have issued := ready.issued solved drawn
  have apart {chosen chosen' : List Share} {θ θ' : Substitution}
      (built : Built f (rootedUnder f base equations) shares chosen θ)
      (built' : Built f (rootedUnder f base equations) shares chosen' θ')
      (member : base.compose θ' ∈ combinations f base (rootedUnder f base equations) shares)
        (different : chosen ≠ chosen') :
      ¬ IsInstance f vars (base.compose θ) (base.compose θ') := by
    intro ⟨ρ, nonempty, general⟩
    refine different (eq_of_instance ready.laws issued built built'
      (based.equal_of_instance known (canonical _ member) general) ?_)
    intro y member'
    rcases issued.term_or (built'.part.subset member') with ⟨v, fresh⟩ | ⟨j, plain, _, constant⟩
    · rw [fresh]
      refine Term.bag_ne_zero ready.laws ?_
      rcases ρ.image_mem_or v with bound | ⟨_, free⟩
      · exact nonempty _ (Substitution.mem_range_of_mem bound)
      · rw [Term.instantiate, free]
        exact Term.everyNode_var v
    · rw [constant, issued.atomic.bag_instantiate plain]
      exact Multiset.singleton_ne_zero _
  rw [combinations, List.pairwise_filterMap]
  have distinct : (choices (isPromising (activeAtoms f (rootedUnder f base equations))) shares.reverse []).Nodup :=
    nodup_choices (by simpa using issued.nodup)
  refine distinct.pairwise_of_forall_ne ?_
  intro chosen among chosen' among' different σ found τ found'
  have member := List.mem_filterMap.mpr ⟨chosen, among, found⟩
  have member' := List.mem_filterMap.mpr ⟨chosen', among', found'⟩
  obtain ⟨_, θ, assembled, _, rfl⟩ := combination_eq_some.mp found
  obtain ⟨_, θ', assembled', _, rfl⟩ := combination_eq_some.mp found'
  have built := issued.built ready.laws ready.sorts among assembled
  have built' := issued.built ready.laws ready.sorts among' assembled'
  exact ⟨apart built built' member' different, apart built' built member different.symm⟩

private theorem Found.pairwise {unifiers : List Substitution} (found : Found limits n equations unifiers) :
    unifiers.Pairwise fun σ τ => ¬ IsInstance f vars σ τ ∧ ¬ IsInstance f vars τ σ := by
  cases found with
  | plain => exact List.pairwise_singleton ..
  | based => exact List.pairwise_singleton ..
  | @combined g base shares prepared =>
    obtain rfl := distinguished.eq_of_combiner? prepared.based.combiner
    exact prepared.pairwise known distinguished

end Unifiers

end AC

namespace Problem

open AC

/-- No unifier found is an instance of another one by terms in which the symbol is nowhere applied to
nothing. -/
theorem unifyAC_irredundant {f : FunctionSymbol} {limits : Limits} {problem : Problem} {interner : Interner}
    {unifiers : List Substitution} (admissible : Admissible f problem.equations)
    (alone : ∀ g ∈ problem.equations.flatMap Equation.symbols, g.id = f.id → g = f)
    (solved : (problem.unifyAC limits interner).1 = .ok unifiers) :
    ∀ i j : Fin unifiers.length, i ≠ j → ¬ ∃ ρ : Substitution, (∀ t ∈ ρ.range, t.hasArguments f = true) ∧
      ∀ v ∈ problem.vars, (unifiers[i].apply (.var v) == ρ.apply (unifiers[j].apply (.var v))) = true := by
  have known : ∀ v ∈ (problem.equations.filter (!·.isTrivial)).flatMap Equation.vars, v ∈ problem.vars := by
    intro v occurs
    obtain ⟨e, member, inside⟩ := List.mem_flatMap.mp occurs
    exact List.mem_eraseDups.mpr (List.mem_flatMap.mpr ⟨e, List.mem_of_mem_filter member, inside⟩)
  have ends : (solve limits problem.equations).Ends { interner, fresh := { stem := limits.freshStem } } _ _ :=
    ends_solve limits problem.equations
  obtain ⟨_, found⟩ := ends.of_run solved
  have apart := List.pairwise_iff_getElem.mp (found.pairwise known (Distinguished.filter ⟨admissible, alone⟩ _))
  intro i j different
  rcases Nat.lt_or_gt_of_ne fun equal => different (Fin.ext equal) with below | above
  · exact (apart i j i.isLt j.isLt below).1
  · exact (apart j i j.isLt i.isLt above).2

/-- Twice one variable against two others. -/
def halved (f : FunctionSymbol) (x y z : Variable) : Problem :=
  ⟨[⟨.node f [.var x, .var x], .node f [.var y, .var z]⟩]⟩

theorem unifyAC_irredundant_halved :
    let f : FunctionSymbol := ⟨⟨0⟩, 2, .associativeCommutative, .default, .default⟩
    let x : Variable := ⟨⟨0⟩, .default⟩
    let y : Variable := ⟨⟨1⟩, .default⟩
    let z : Variable := ⟨⟨2⟩, .default⟩
    let interner : Interner := { Interner.empty with variableTable := ⟨["x", "y", "z"]⟩ }
    ∃ unifiers, ((halved f x y z).unifyAC {} interner).1 = .ok unifiers ∧ unifiers.length = 5 ∧
      ∀ i j : Fin unifiers.length, i ≠ j → ¬ ∃ ρ : Substitution, (∀ t ∈ ρ.range, t.hasArguments f = true) ∧
        ∀ v ∈ (halved f x y z).vars, (unifiers[i].apply (.var v) == ρ.apply (unifiers[j].apply (.var v))) = true := by
  intro f x y z interner
  have number : ((halved f x y z).unifyAC {} interner).1.map List.length = .ok 5 := by cbv
  cases solved : ((halved f x y z).unifyAC {} interner).1 with
  | ok unifiers =>
    rw [solved, Except.map, Except.ok.injEq] at number
    exact ⟨unifiers, rfl, number, unifyAC_irredundant (by decide) (by decide) solved⟩
  | error failure =>
    rw [solved] at number
    cases number

/-- Two of the lists of bindings are read as unifiers, and the values of the one are instances of those of the other. -/
private theorem exists_instance_of_bindings {problem : Problem} {limits : Limits} {interner : Interner}
    {listed : List (List (Variable × Term))} {left right : List (Variable × Term)} {i j : Nat} (ρ : Substitution)
    (bindings : (problem.unifyAC limits interner).1.map (·.map (·.bindings)) = .ok listed) (different : i ≠ j)
    (first : listed[i]? = some left) (second : listed[j]? = some right)
    (same : ∀ v ∈ problem.vars, ∃ p ∈ left, ∃ q ∈ right, p.1 = v ∧ q.1 = v ∧ (p.2 == ρ.apply q.2) = true) :
    ∃ unifiers, (problem.unifyAC limits interner).1 = .ok unifiers ∧ ∃ i j : Fin unifiers.length, i ≠ j ∧
      ∀ v ∈ problem.vars, (unifiers[i].apply (.var v) == ρ.apply (unifiers[j].apply (.var v))) = true := by
  cases solved : (problem.unifyAC limits interner).1 with
  | error failure =>
    rw [solved] at bindings
    cases bindings
  | ok unifiers =>
    rw [solved, Except.map, Except.ok.injEq] at bindings
    rw [← bindings, List.getElem?_map, Option.map_eq_some_iff] at first second
    obtain ⟨σ, atFirst, rfl⟩ := first
    obtain ⟨τ, atSecond, rfl⟩ := second
    obtain ⟨insideFirst, rfl⟩ := List.getElem?_eq_some_iff.mp atFirst
    obtain ⟨insideSecond, rfl⟩ := List.getElem?_eq_some_iff.mp atSecond
    refine ⟨unifiers, rfl, ⟨i, insideFirst⟩, ⟨j, insideSecond⟩, fun equal => different (Fin.mk.inj equal), ?_⟩
    intro v occurs
    obtain ⟨⟨_, s⟩, member, ⟨_, t⟩, member', rfl, rfl, equal⟩ := same v occurs
    rwa [Substitution.apply_var, Substitution.apply_var, Fin.getElem_fin, Fin.getElem_fin,
      Substitution.image_of_mem member, Substitution.image_of_mem member']

/-- Where a fresh variable may stand for the empty combination, the unifiers overlap: the third is an
instance of the last. Where another symbol has the number of the combiner, its arguments count
without their order, and one unifier is found twice. -/
theorem unifyAC_redundant :
    let f : FunctionSymbol := ⟨⟨0⟩, 2, .associativeCommutative, .default, .default⟩
    let g : FunctionSymbol := ⟨⟨0⟩, 2, .free, .default, .default⟩
    let x : Variable := ⟨⟨0⟩, .default⟩
    let y : Variable := ⟨⟨1⟩, .default⟩
    let z : Variable := ⟨⟨2⟩, .default⟩
    let a : Constant := ⟨⟨0⟩, .default⟩
    let interner : Interner := { Interner.empty with variableTable := ⟨["x", "y", "z"]⟩ }
    let empty : Substitution := { bindings := [(⟨⟨4⟩, .default⟩, .node f [])], distinct := by decide }
    let double : Term := .node f [.const a, .const a]
    let numbered : Problem := ⟨[⟨.node g [.var x, .var y], .node g [double, .var z]⟩, ⟨.var z, double⟩]⟩
    (Admissible f (halved f x y z).equations ∧ (∀ v ∈ (halved f x y z).vars, v.id.index < interner.variableCount) ∧
      ∃ unifiers, ((halved f x y z).unifyAC {} interner).1 = .ok unifiers ∧ ∃ i j : Fin unifiers.length, i ≠ j ∧
        ∀ v ∈ (halved f x y z).vars,
        (unifiers[i].apply (.var v) == empty.apply (unifiers[j].apply (.var v))) = true) ∧
    Admissible f numbered.equations ∧ (∀ v ∈ numbered.vars, v.id.index < interner.variableCount) ∧
      ∃ unifiers, (numbered.unifyAC {} interner).1 = .ok unifiers ∧ ∃ i j : Fin unifiers.length, i ≠ j ∧
        ∃ ρ : Substitution, (∀ t ∈ ρ.range, t.hasArguments f = true) ∧
          ∀ v ∈ numbered.vars, (unifiers[i].apply (.var v) == ρ.apply (unifiers[j].apply (.var v))) = true := by
  intro f g x y z a interner empty double numbered
  let v₀ : Term := .var ⟨⟨3⟩, .default⟩
  let v₁ : Term := .var ⟨⟨4⟩, .default⟩
  let v₂ : Term := .var ⟨⟨5⟩, .default⟩
  refine ⟨⟨by decide, by decide, ?overlapping⟩, by decide, by decide, ?twice⟩
  case overlapping =>
    have bindings : ((halved f x y z).unifyAC {} interner).1.map (fun unifiers => unifiers.map (·.bindings)) = .ok
        [[(x, v₁), (y, v₁), (z, v₁)],
          [(x, .node f [v₀, v₁]), (y, .node f [v₀, v₀, v₁]), (z, v₁)],
          [(x, .node f [v₀, v₂]), (y, .node f [v₀, v₀]), (z, .node f [v₂, v₂])],
          [(x, .node f [v₁, v₂]), (y, v₁), (z, .node f [v₁, v₂, v₂])],
          [(x, .node f [v₀, v₁, v₂]), (y, .node f [v₀, v₀, v₁]), (z, .node f [v₁, v₂, v₂])]] := by
      cbv
    exact exists_instance_of_bindings (i := 2) (j := 4) empty bindings (by decide) rfl rfl (by decide)
  case twice =>
    have bindings : (numbered.unifyAC {} interner).1.map (fun unifiers => unifiers.map (·.bindings)) = .ok
        [[(x, double), (y, double), (z, double)], [(x, double), (y, double), (z, double)]] := by
      -- Two choices fail the last test, and `cbv` is slow on an `if` whose condition fails.
      simp only [unifyAC, solve, combine, ← Bool.cond_eq_ite]
      cbv
    obtain ⟨unifiers, solved, i, j, different, same⟩ :=
      exists_instance_of_bindings (i := 0) (j := 1) .empty bindings (by decide) rfl rfl (by decide)
    exact ⟨unifiers, solved, i, j, different, .empty, by decide, same⟩

end Problem

end Equational
