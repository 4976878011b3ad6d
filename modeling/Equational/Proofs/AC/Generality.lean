import Equational.Proofs.AC.Check
import Equational.Proofs.AC.Partition
import Equational.Proofs.AC.Soundness

/-! Every solution of equations under the combiner is an instance of a combination that is found.
The parts of what the atoms stand for select the shares, and a fresh variable stands for all that
is handed out along its vector. -/

namespace Equational.AC

open HomogeneousSystem

/-- The equations have passed their checks: the sides are in good order and consist of variables
and ground terms, and no equation is trivial. -/
structure Ready (f : FunctionSymbol) (equations : List Equation) : Prop where
  laws : f.theory = .associativeCommutative
  sorts : f.range = f.domain
  canonical : EverySide (fun t => t.isCanonical = true) equations
  plain : EverySide (Plain f) equations
  members : ∀ e ∈ equations, ∀ a ∈ membersOf f e, a.sort = f.domain ∧ (a.isVariable = true ∨ a.isGround = true)
  proper : ∀ e ∈ equations, e.isTrivial = false

section Sides

variable {f : FunctionSymbol} {t : Term}

private theorem bag_members (laws : f.theory = .associativeCommutative) (plain : Plain f t) (m : Variable → Term) :
    Term.bag f (t.instantiate m) = ((members f t).map fun a => Term.bag f (a.instantiate m)).sum := by
  simp only [members]
  split
  next rooted =>
    obtain ⟨args, rfl⟩ := Term.exists_of_head? (plain.root rooted)
    exact Term.bag_instantiate_node laws _ m
  next => rw [List.map_singleton, List.sum_singleton]

private theorem head?_of_mem_members (laws : f.theory = .associativeCommutative) (canonical : t.isCanonical = true)
    (plain : Plain f t) : ∀ a ∈ members f t, a.head? ≠ some f := by
  intro a member
  simp only [members] at member
  split at member
  next rooted =>
    obtain ⟨args, rfl⟩ := Term.exists_of_head? (plain.root rooted)
    exact (Term.isReduced_iff.mp (Term.isCanonical_node.mp canonical).1).1 (Term.isAssociative_of_laws laws) a member
  next other =>
    rw [List.mem_singleton.mp member]
    intro head
    obtain ⟨args, rfl⟩ := Term.exists_of_head? head
    exact other (by simp [Term.isRootedAt])

end Sides

section Ready

variable {f : FunctionSymbol} {equations : List Equation} {m : Variable → Term} (ready : Ready f equations)
include ready

theorem Ready.atomic : Atomic f (activeAtoms f equations) where
  apart := (List.pairwise_eraseDups _).filter _
  sort a active := by
    obtain ⟨e, member, occurs⟩ := (mem_activeAtoms active).1
    exact (ready.members e member a occurs).1
  binary := everySide_activeAtoms (Term.hereditary_isAtLeastBinary f).substitutive
    (EverySide.imp ready.plain fun plain => plain.binary)
  constant a active plain := by
    obtain ⟨e, member, occurs⟩ := (mem_activeAtoms active).1
    have ground := (ready.members e member a occurs).2.resolve_left (by simp [plain])
    refine ⟨everySide_activeAtoms Term.hereditary_isCanonical.substitutive ready.canonical a active, ground, ?_⟩
    rcases List.mem_append.mp occurs with left | right
    · exact head?_of_mem_members ready.laws (ready.canonical e member).1 (ready.plain e member).1 a left
    · exact head?_of_mem_members ready.laws (ready.canonical e member).2 (ready.plain e member).2 a right

/-- The equations hold when everything that the atoms stand for solves their rows. -/
theorem Ready.holds_iff [DecidableEq Term] (binary : ∀ v, (m v).isAtLeastBinary f = true) :
    (∀ e ∈ equations, e.Holds m) ↔ ∀ s, ∀ row ∈ rows f equations,
      value row (fun j : Fin (activeAtoms f equations).length =>
        (Term.bag f (((activeAtoms f equations).get j).instantiate m)).count s) = 0 := by
  have hereditary := Term.hereditary_isAtLeastBinary f
  rw [← sum_bags_eq_iff (fun a => Term.bag f (a.instantiate m))
    fun s t same => Term.bag_congr (Term.instantiate_congr (Term.beq_iff_shape.mp same) m)]
  refine forall₂_congr ?_
  intro e member
  rw [← bag_members ready.laws (ready.plain e member).1, ← bag_members ready.laws (ready.plain e member).2]
  refine ⟨Term.bag_congr, Term.shape_eq_of_bag_eq ready.laws ?_ ?_⟩
  · exact hereditary.instantiate (ready.plain e member).1.binary binary
  · exact hereditary.instantiate (ready.plain e member).2.binary binary

private theorem Ready.activeAtoms_ne_nil (some : equations ≠ []) : activeAtoms f equations ≠ [] := by
  classical
  intro none
  obtain ⟨e, rest, rfl⟩ := List.exists_cons_of_ne_nil some
  have holds : ∀ d ∈ e :: rest, d.Holds Term.var := by
    refine (ready.holds_iff fun v => (Term.hereditary_isAtLeastBinary f).var v).mpr ?_
    intro s row member
    obtain ⟨d, _, rfl⟩ := List.mem_map.mp member
    refine Finset.sum_eq_zero fun j _ => absurd j.isLt ?_
    simp [none]
  have first := List.mem_cons_self (a := e) (l := rest)
  have same := holds e first
  rw [Equation.Holds, Term.shape_instantiate_var (ready.canonical e first).1,
    Term.shape_instantiate_var (ready.canonical e first).2] at same
  have trivial : e.isTrivial = true := Term.beq_iff_shape.mpr same
  rw [ready.proper e first] at trivial
  cases trivial

/-- What the atoms stand for under a solution can be handed out along solution vectors. -/
theorem Ready.exists_partition (binary : ∀ v, (m v).isAtLeastBinary f = true) (holds : ∀ e ∈ equations, e.Holds m) :
    ∃ parts, Partition f (activeAtoms f equations) m parts ∧ ∀ p ∈ parts,
      Minimal (Solves (rows f equations)) p.2 := by
  classical
  obtain ⟨parts, minimal, covers⟩ := exists_handed _ ((ready.holds_iff binary).mp holds)
  exact ⟨parts, ⟨fun p member => (minimal p member).1.1, covers⟩, minimal⟩

end Ready

section Assembled

variable {f : FunctionSymbol} {atoms : List Term} {n : Nat} {parts : List (Term × (Fin atoms.length → Nat))}
  {shares : List Share}

theorem Atomic.of_mem_shares (atomic : Atomic f atoms) {vectors : List (List Nat)}
    (drawn : Drawn f atoms n vectors shares) :
    ∀ x ∈ shares, x.term.sort = f.domain ∧ x.term.isAtLeastBinary f = true := by
  intro x member
  rcases drawn.term x member with ⟨count, others, found⟩ | ⟨_, k, _, fresh⟩
  · have listed : (x.term, count) ∈ constantShares atoms x.vector := by simp [found]
    have origin : x.term ∈ atoms := mem_of_constantShares listed
    exact ⟨atomic.sort _ origin, atomic.binary _ origin⟩
  · rw [fresh]
    exact ⟨rfl, (Term.hereditary_isAtLeastBinary f).var _⟩

/-- The substitution is assembled from the shares, and every atom stands for what it receives. -/
structure Assembled (f : FunctionSymbol) (atoms : List Term) (chosen : List Share) (θ : Substitution) : Prop where
  assembled : assemble f chosen 0 atoms .empty = some θ
  value : ∀ j : Fin atoms.length, ((atoms.get j).instantiate θ.image).shape =
    (Term.combined f (received chosen j)).shape
  binary : ∀ v, (θ.image v).isAtLeastBinary f = true
  outside : ∀ v, .var v ∉ atoms → θ.image v = .var v

/-- Shares that suffice can be assembled. -/
theorem exists_assembled (laws : f.theory = .associativeCommutative) (sorts : f.range = f.domain)
    (atomic : Atomic f atoms)
    {chosen : List Share} (suffices' : Suffices atoms chosen)
    (terms : ∀ x ∈ chosen, x.term.sort = f.domain ∧ x.term.isAtLeastBinary f = true) :
    ∃ θ, Assembled f atoms chosen θ := by
  have some (j : Fin atoms.length) : received chosen j ≠ [] := by
    obtain ⟨x, inside, serves⟩ := suffices'.served j
    exact List.ne_nil_of_mem (mem_received_of_copies inside serves)
  have handed (j : Fin atoms.length) : ∀ t ∈ received chosen j, t.sort = f.domain ∧ t.isAtLeastBinary f = true := by
    intro t member
    obtain ⟨y, among, rfl⟩ := mem_received member
    exact terms y among
  have served : ∀ p ∈ atoms.zipIdx 0, Served f chosen p.1 p.2 := by
    intro p member
    obtain ⟨j, rfl⟩ := exists_column member
    have sort : (atoms.get j).sort = f.domain := atomic.sort _ (List.getElem_mem j.isLt)
    refine ⟨some j, ?_, fun plain => (suffices'.once j plain).received_eq⟩
    exact (Term.sort_combined laws sorts fun t inside => (handed j t inside).1).trans sort.symm
  obtain ⟨θ, assembled, values, outside⟩ := exists_assemble .empty atomic.apart
    (fun v _ => by simp [Substitution.empty, Substitution.domain]) served
  have value (j : Fin atoms.length) {v : Variable} (same : (atoms.get j) = .var v) :
      θ.image v = Term.combined f (received chosen j) := by
    have listed : ((atoms.get j), j.val) ∈ atoms.zipIdx :=
      List.mk_mem_zipIdx_iff_getElem?.mpr (List.getElem?_eq_getElem j.isLt)
    exact values _ listed v same
  refine ⟨θ, assembled, ?_, ?_, outside⟩
  · intro j
    cases plain : (atoms.get j).isVariable with
    | true =>
      obtain ⟨v, same⟩ := Term.exists_of_isVariable plain
      rw [same, ← value j same]
      rfl
    | false => rw [(suffices'.once j plain).received_eq, atomic.shape_instantiate plain, Term.combined]
  · intro v
    by_cases bound : .var v ∈ atoms
    · obtain ⟨i, inside, same⟩ := List.getElem_of_mem bound
      rw [value ⟨i, inside⟩ same]
      exact Term.isAtLeastBinary_combined (some _) fun t member => (handed _ t member).2
    · rw [outside v bound]
      exact (Term.hereditary_isAtLeastBinary f).var v

end Assembled

section Settled

variable {f : FunctionSymbol} {atoms : List Term} {n : Nat} {m : Variable → Term}
  {parts : List (Term × (Fin atoms.length → Nat))} {shares : List Share}

/-- A fresh variable stands for all that is handed out along the vector of its share, any other
variable for what it stood for. -/
def settled (f : FunctionSymbol) {n : Nat} (parts : List (Term × (Fin n → Nat))) (chosen : List Share)
    (m : Variable → Term) (v : Variable) : Term :=
  match chosen.find? fun x => x.term.asVariable == some v with
  | some x => Term.combined f (pieces parts x.vector)
  | none => m v

private theorem settled_or (f : FunctionSymbol) (parts : List (Term × (Fin n → Nat))) (chosen : List Share)
    (m : Variable → Term)
    (v : Variable) :
    (settled f parts chosen m v = m v ∧ ∀ x ∈ chosen, x.term ≠ .var v) ∨
      ∃ x ∈ chosen, x.term = .var v ∧ settled f parts chosen m v = Term.combined f (pieces parts x.vector) := by
  simp only [settled]
  split
  next x found =>
    have passes : (x.term.asVariable == some v) = true := by
      simpa using List.find?_some found
    exact .inr ⟨x, List.mem_of_find?_eq_some found, asVariable_eq_some passes, rfl⟩
  next absent =>
    refine .inl ⟨rfl, ?_⟩
    intro x member same
    have other := List.find?_eq_none.mp absent x member
    simp [same, Term.asVariable] at other

private theorem Partition.binary_settled (partition : Partition f atoms m parts)
    (laws : f.theory = .associativeCommutative)
    (atomic : Atomic f atoms) (binary : ∀ v, (m v).isAtLeastBinary f = true) (v : Variable) :
    (settled f parts (selection parts shares) m v).isAtLeastBinary f = true := by
  rcases settled_or f parts (selection parts shares) m v with ⟨same, _⟩ | ⟨x, member, _, value⟩
  · rw [same]
    exact binary v
  · obtain ⟨_, p, part, vector⟩ := mem_selection.mp member
    rw [value]
    refine Term.isAtLeastBinary_combined (List.ne_nil_of_mem (mem_pieces.mpr ⟨p, part, vector, rfl⟩)) ?_
    intro s piece
    obtain ⟨q, part', _, rfl⟩ := mem_pieces.mp piece
    obtain ⟨j, found⟩ := partition.exists_mem_bag part'
    refine Term.isAtLeastBinary_of_mem_bag laws ?_ found
    exact (Term.hereditary_isAtLeastBinary f).instantiate (atomic.binary _ (List.getElem_mem j.isLt)) binary

variable (provided : Provided f atoms n parts shares)
include provided

private theorem Provided.settled_of_lt {v : Variable} (old : v.id.index < n) : settled f parts
    (selection parts shares) m v = m v := by
  obtain ⟨vectors, _, drawn⟩ := provided.drawn
  rcases settled_or f parts (selection parts shares) m v with ⟨same, _⟩ | ⟨x, member, term, _⟩
  · exact same
  · rcases drawn.term x (mem_selection.mp member).1 with ⟨count, others, found⟩ | ⟨_, k, above, fresh⟩
    · have proper := isVariable_of_constantShares found
      rw [term] at proper
      cases proper
    · rw [term, Term.var.injEq] at fresh
      subst fresh
      exact absurd old (Nat.not_lt.mpr above)

private theorem Provided.settled_of_term {v : Variable} {x : Share} (member : x ∈ selection parts shares)
    (term : x.term = .var v) :
    settled f parts (selection parts shares) m v = Term.combined f (pieces parts x.vector) := by
  obtain ⟨vectors, _, drawn⟩ := provided.drawn
  rcases settled_or f parts (selection parts shares) m v with ⟨_, none⟩ | ⟨y, among, same, value⟩
  · exact absurd term (none x member)
  · rwa [drawn.eq_of_term (mem_selection.mp member).1 (mem_selection.mp among).1 term same]

variable (partition : Partition f atoms m parts) (laws : f.theory = .associativeCommutative) (atomic : Atomic f atoms)
include partition laws atomic

private theorem Provided.bag_term {x : Share} (member : x ∈ selection parts shares) :
    Term.bag f (x.term.instantiate (settled f parts (selection parts shares) m)) = pieces parts x.vector := by
  obtain ⟨inside, p, part, vector⟩ := mem_selection.mp member
  obtain ⟨vectors, _, drawn⟩ := provided.drawn
  rcases drawn.term x inside with ⟨count, others, found⟩ | ⟨_, k, _, fresh⟩
  · have listed : (x.term, count) ∈ constantShares atoms (List.ofFn p.2) := by simp [vector, found]
    rw [constantShares_ofFn] at listed
    obtain ⟨j, passes, pair⟩ := List.mem_map.mp listed
    simp only [List.mem_filter, Bool.and_eq_true, Bool.not_eq_true', decide_eq_true_eq] at passes
    obtain ⟨_, plain, serves⟩ := passes
    rw [← copies_ofFn vector.symm] at serves
    obtain ⟨_, term, handed⟩ := provided.constant partition atomic member plain (Nat.ne_of_gt serves)
    rw [term, atomic.bag_instantiate plain, handed]
    rfl
  · have single : ∀ s ∈ pieces parts x.vector, Term.bag f s = {s} := by
      intro s piece
      obtain ⟨q, part', _, rfl⟩ := mem_pieces.mp piece
      obtain ⟨j, found⟩ := partition.exists_mem_bag part'
      exact Term.bag_of_mem_bag laws found
    rw [fresh]
    change Term.bag f (settled f parts (selection parts shares) m ⟨⟨k⟩, f.domain⟩) = _
    rw [provided.settled_of_term member fresh, Term.bag_combined laws, List.map_congr_left single, ← Multiset.sum_coe,
      ← Multiset.map_coe, Multiset.sum_map_singleton]

private theorem Provided.sort_settled (sorts : f.range = f.domain)
    (sorted : ∀ v, (m v).sort = v.sort ∧ (m v).isWellSorted = true)
    (v : Variable) : (settled f parts (selection parts shares) m v).sort = v.sort := by
  rcases settled_or f parts (selection parts shares) m v with ⟨same, _⟩ | ⟨x, member, term, value⟩
  · rw [same]
    exact (sorted v).1
  · obtain ⟨vectors, _, drawn⟩ := provided.drawn
    have domain : v.sort = f.domain := by
      have handed := (atomic.of_mem_shares drawn x (mem_selection.mp member).1).1
      rwa [term] at handed
    rw [value, domain]
    refine Term.sort_combined laws sorts ?_
    intro s piece
    obtain ⟨q, part, _, rfl⟩ := mem_pieces.mp piece
    obtain ⟨j, found⟩ := partition.exists_mem_bag part
    have atom : (atoms.get j).sort = f.domain := atomic.sort _ (List.getElem_mem j.isLt)
    cases plain : (atoms.get j).isVariable with
    | false =>
      rw [atomic.bag_instantiate plain, Multiset.mem_singleton] at found
      rw [found, Term.sort_shape, atom]
    | true =>
      obtain ⟨w, same⟩ := Term.exists_of_isVariable plain
      rw [same] at found atom
      exact Term.sort_of_mem_bag (sorted w).2 ((sorted w).1.trans atom) found

end Settled

section General

variable {f : FunctionSymbol} {equations : List Equation} {n : Nat} {m : Variable → Term}
  {parts : List (Term × (Fin (activeAtoms f equations).length → Nat))} {shares : List Share} {θ : Substitution}
  (ready : Ready f equations) (assembled : Assembled f (activeAtoms f equations) (selection parts shares) θ)
include ready assembled

/-- What is assembled from solution vectors solves the equations. -/
theorem Ready.holds_assembled (minimal : ∀ p ∈ parts, Minimal (Solves (rows f equations)) p.2) :
    ∀ e ∈ equations, e.Holds θ.image := by
  classical
  refine (ready.holds_iff assembled.binary).mpr ?_
  intro s row member
  have handed (j : Fin (activeAtoms f equations).length) :
      Term.bag f (((activeAtoms f equations).get j).instantiate θ.image) =
        ((selection parts shares).map fun x => x.copies j • Term.bag f x.term).sum := by
    rw [Term.bag_congr (assembled.value j), Term.bag_combined ready.laws, sum_received]
  simp only [handed]
  refine value_of_handed _ (fun (x : Share) (j : Fin (activeAtoms f equations).length) => x.copies j) _ ?_ s
  intro x chosen
  obtain ⟨_, p, part, vector⟩ := mem_selection.mp chosen
  rw [funext (copies_ofFn vector.symm)]
  exact (minimal p part).1.2 row member

/-- The solution that the parts were taken from is an instance of what is assembled. -/
theorem Ready.instance_assembled (provided : Provided f (activeAtoms f equations) n parts shares)
    (partition : Partition f (activeAtoms f equations) m parts)
    (binary : ∀ v, (m v).isAtLeastBinary f = true) {v : Variable} (old : v.id.index < n) :
    ((θ.image v).instantiate (settled f parts (selection parts shares) m)).shape = (m v).shape := by
  have laws := ready.laws
  by_cases bound : .var v ∈ activeAtoms f equations
  · obtain ⟨i, inside, same⟩ := List.getElem_of_mem bound
    let j : Fin (activeAtoms f equations).length := ⟨i, inside⟩
    have atom : ((activeAtoms f equations).get j) = .var v := same
    have value := assembled.value j
    have whole := partition.covers j
    rw [atom] at value whole
    refine Term.shape_eq_of_bag_eq laws ?_ (binary v) ?_
    · exact (Term.hereditary_isAtLeastBinary f).instantiate (assembled.binary v)
        (partition.binary_settled laws ready.atomic binary)
    · change (θ.image v).shape = _ at value
      change Term.bag f (m v) = _ at whole
      have handed : ∀ x ∈ selection parts shares,
          x.copies j • Term.bag f (x.term.instantiate (settled f parts (selection parts shares) m)) =
            x.copies j • (pieces parts x.vector : Multiset Term) := by
        intro x chosen
        rw [provided.bag_term partition laws ready.atomic chosen]
      rw [whole, Term.bag_congr (Term.instantiate_congr value _), Term.bag_instantiate_combined laws,
        sum_received fun t => Term.bag f (t.instantiate (settled f parts (selection parts shares) m)),
        List.map_congr_left handed, provided.sum_pieces j]
  · rw [assembled.outside v bound]
    change (settled f parts (selection parts shares) m v).shape = _
    rw [provided.settled_of_lt old]

end General

/-- Every solution is an instance of a unifier that is assembled from one of the choices. -/
theorem Ready.exists_general {f : FunctionSymbol} {equations : List Equation} {limits : Limits} {n : Nat}
    {vectors : List (List Nat)} {shares : List Share} {m : Variable → Term} (ready : Ready f equations)
    (some : equations ≠ []) (solved : solutionVectors limits f equations (activeAtoms f equations) = .ok vectors)
    (drawn : Drawn f (activeAtoms f equations) n vectors shares) (binary : ∀ v, (m v).isAtLeastBinary f = true)
    (holds : ∀ e ∈ equations, e.Holds m) :
    ∃ chosen ∈ choices (isPromising (activeAtoms f equations)) shares.reverse [], chosen ≠ [] ∧
      ∃ θ, assemble f chosen 0 (activeAtoms f equations) .empty = .some θ ∧ (∀ e ∈ equations, holdsUnder θ e = true) ∧
        ∃ μ : Variable → Term, (∀ v, v.id.index < n → ((θ.image v).instantiate μ).shape = (m v).shape) ∧
          ((∀ v, (m v).sort = v.sort ∧ (m v).isWellSorted = true) → ∀ v, (μ v).sort = v.sort) := by
  obtain ⟨parts, partition, minimal⟩ := ready.exists_partition binary holds
  obtain ⟨distinct, _, vectors_iff⟩ := mem_solutionVectors solved
  have provided : Provided f (activeAtoms f equations) n parts shares := by
    refine ⟨⟨vectors, distinct, drawn⟩, ?_⟩
    intro p part
    have listed := (vectors_iff p.2).mpr ⟨minimal p part, partition.isUsable ready.atomic part⟩
    rw [← drawn.map_vector] at listed
    exact List.mem_map.mp listed
  have suffices' := provided.suffices partition ready.atomic ready.laws binary
  obtain ⟨θ, assembled⟩ := exists_assembled ready.laws ready.sorts ready.atomic suffices'
    fun x member => ready.atomic.of_mem_shares drawn x (mem_selection.mp member).1
  have solution := ready.holds_assembled assembled minimal
  refine ⟨selection parts shares, filter_mem_choices suffices', ?_, θ, assembled.assembled, ?_,
    settled f parts (selection parts shares) m, ?_,
    provided.sort_settled partition ready.laws ready.atomic ready.sorts⟩
  · obtain ⟨x, member, _⟩ := suffices'.served ⟨0, List.length_pos_iff.mpr (ready.activeAtoms_ne_nil some)⟩
    exact List.ne_nil_of_mem member
  · intro e member
    exact (holdsUnder_iff (ready.canonical e member).1 (ready.canonical e member).2).mpr (solution e member)
  · intro v old
    exact ready.instance_assembled assembled provided partition binary old

end Equational.AC
