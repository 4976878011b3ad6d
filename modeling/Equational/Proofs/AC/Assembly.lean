import Equational.Proofs.AC.Outcome
import Equational.Proofs.AC.System
import Equational.Proofs.Term.Bag

/-! From solution vectors to bindings. The pruned search finds every selection of shares that
serves all atoms and shares out no constant twice, and such a selection can be assembled: each
variable among the atoms is bound to the combination of what it receives. -/

namespace Equational.AC

section Choices

variable {α : Type} {promising : List α → List α → Bool} {selected : α → Bool}

private theorem mem_choices {rest chosen : List α} (stays : ∀ before after, rest = before ++ after →
      promising after ((before.filter selected).reverse ++ chosen) = true) :
    (rest.filter selected).reverse ++ chosen ∈ choices promising rest chosen := by
  induction rest generalizing chosen with
  | nil =>
    have now : promising [] chosen = true := stays [] [] rfl
    rw [choices, if_pos now]
    exact List.mem_singleton_self _
  | cons x rest ih =>
    have now : promising (x :: rest) chosen = true := stays [] (x :: rest) rfl
    rw [choices, if_pos now, List.mem_append]
    cases taken : selected x with
    | false =>
      left
      rw [List.filter_cons_of_neg (by simp [taken])]
      refine ih ?_
      intro before after split
      have later := stays (x :: before) after (by rw [split, List.cons_append])
      rwa [List.filter_cons_of_neg (by simp [taken])] at later
    | true =>
      right
      rw [List.filter_cons_of_pos taken, List.reverse_cons, List.append_assoc]
      refine ih ?_
      intro before after split
      have later := stays (x :: before) after (by rw [split, List.cons_append])
      rwa [List.filter_cons_of_pos taken, List.reverse_cons, List.append_assoc] at later

end Choices

def Share.copies (x : Share) (column : Nat) : Nat :=
  x.vector.getD column 0

/-- One share gives the column a single copy of the term, and no other gives it anything. -/
def GivenOnce (chosen : List Share) (column : Nat) (t : Term) : Prop :=
  ∃ before x after, chosen = before ++ x :: after ∧ x.copies column = 1 ∧ x.term = t ∧
    ∀ y ∈ before ++ after, y.copies column = 0

private theorem received_eq (chosen : List Share) (column : Nat) :
    received chosen column = chosen.flatMap fun x => List.replicate (x.copies column) x.term :=
  rfl

private theorem received_eq_nil {chosen : List Share} {column : Nat} (none : ∀ x ∈ chosen, x.copies column = 0) :
    received chosen column = [] := by
  rw [received_eq, List.flatMap_eq_nil_iff]
  intro x member
  rw [none x member, List.replicate_zero]

theorem GivenOnce.received_eq {chosen : List Share} {column : Nat} {t : Term} (once : GivenOnce chosen column t) :
    received chosen column = [t] := by
  obtain ⟨before, x, after, rfl, single, rfl, none⟩ := once
  have first := received_eq_nil fun y member => none y (List.mem_append_left _ member)
  have last := received_eq_nil fun y member => none y (List.mem_append_right _ member)
  rw [AC.received_eq] at first last ⊢
  rw [List.flatMap_append, List.flatMap_cons, first, last, single]
  rfl

theorem mem_received_of_copies {chosen : List Share} {column : Nat} {x : Share} (member : x ∈ chosen)
    (serves : 0 < x.copies column) : x.term ∈ received chosen column :=
  List.mem_flatMap.mpr ⟨x, member, List.mem_replicate.mpr ⟨Nat.ne_of_gt serves, rfl⟩⟩

/-- What a column receives adds up to what the shares give it. -/
theorem sum_received {M : Type} [AddCommMonoid M] (g : Term → M) (chosen : List Share) (column : Nat) :
    ((received chosen column).map g).sum = (chosen.map fun x => x.copies column • g x.term).sum := by
  rw [received_eq]
  induction chosen with
  | nil => rfl
  | cons x chosen ih =>
    rw [List.flatMap_cons, List.map_append, List.sum_append, ih, List.map_replicate, List.sum_replicate,
      List.map_cons, List.sum_cons]

section Promising

variable {atoms : List Term} {shares : List Share} {selected : Share → Bool}

theorem exists_column {p : Term × Nat} (member : p ∈ atoms.zipIdx) : ∃ j : Fin atoms.length, p =
    ((atoms.get j), j.val) := by
  obtain ⟨inside, same⟩ := List.mem_zipIdx' member
  exact ⟨⟨p.2, inside⟩, Prod.ext same rfl⟩

/-- Every column is served by a selected share, and the column of a constant only once. -/
structure Suffices (atoms : List Term) (chosen : List Share) : Prop where
  served : ∀ j : Fin atoms.length, ∃ x ∈ chosen, 0 < x.copies j
  once : ∀ j : Fin atoms.length, (atoms.get j).isVariable = false → GivenOnce chosen j (atoms.get j)

private theorem GivenOnce.countP_le {chosen part : List Share} {column : Nat} {t : Term}
    (once : GivenOnce chosen column t)
    (sub : part.Sublist chosen) : part.countP (fun x => decide (0 < x.copies column)) ≤ 1 := by
  obtain ⟨before, x, after, rfl, single, _, none⟩ := once
  refine Nat.le_trans (sub.countP_le) ?_
  have idle : ∀ y ∈ before ++ after, ¬ decide (0 < y.copies column) = true := by
    intro y member
    simp [none y member]
  rw [List.countP_append, List.countP_cons, List.countP_eq_zero.mpr fun y member =>
    idle y (List.mem_append_left _ member), List.countP_eq_zero.mpr fun y member =>
      idle y (List.mem_append_right _ member)]
  simp [single]

private theorem isPromising_of_suffices (suffices' : Suffices atoms (shares.filter selected))
    {before after : List Share} (split : shares.reverse = before ++ after) :
    isPromising atoms after (before.filter selected).reverse = true := by
  have order : shares.filter selected = (after.filter selected).reverse ++ (before.filter selected).reverse := by
    rw [← List.reverse_append, ← List.filter_append, ← split, List.filter_reverse, List.reverse_reverse]
  have part : (before.filter selected).reverse.Sublist (shares.filter selected) := by
    rw [order]
    exact List.sublist_append_right _ _
  rw [isPromising, List.all_eq_true]
  intro p member
  obtain ⟨j, rfl⟩ := exists_column member
  simp only [Bool.and_eq_true, Bool.or_eq_true, List.any_eq_true, decide_eq_true_eq]
  constructor
  · obtain ⟨x, among, serves⟩ := suffices'.served j
    rw [order, List.mem_append, List.mem_reverse, List.mem_reverse] at among
    rcases among with later | earlier
    · exact .inr ⟨x, List.mem_of_mem_filter later, serves⟩
    · exact .inl ⟨x, List.mem_reverse.mpr earlier, serves⟩
  · cases plain : (atoms.get j).isVariable with
    | true => exact .inl rfl
    | false => exact .inr ((suffices'.once j plain).countP_le part)

/-- A selection that suffices is among the choices. -/
theorem filter_mem_choices (suffices' : Suffices atoms (shares.filter selected)) :
    shares.filter selected ∈ choices (isPromising atoms) shares.reverse [] := by
  have found : (shares.reverse.filter selected).reverse ++ [] ∈ choices (isPromising atoms) shares.reverse [] := by
    refine mem_choices ?_
    intro before after split
    rw [List.append_nil]
    exact isPromising_of_suffices suffices' split
  rwa [List.append_nil, List.filter_reverse, List.reverse_reverse] at found

end Promising

section Drawn

variable {f : FunctionSymbol} {atoms : List Term} {n : Nat} {vectors : List (List Nat)} {shares : List Share}

theorem Drawn.map_vector (drawn : Drawn f atoms n vectors shares) : shares.map Share.vector = vectors := by
  induction drawn with
  | nil => rfl
  | constant _ _ ih => rw [List.map_cons, ih]
  | fresh _ _ ih => rw [List.map_cons, ih]

/-- A share hands out its constant, or else a variable that was not in use. -/
theorem Drawn.term (drawn : Drawn f atoms n vectors shares) : ∀ x ∈ shares,
    (∃ count others, constantShares atoms x.vector = (x.term, count) :: others) ∨
      constantShares atoms x.vector = [] ∧ ∃ k ≥ n, x.term = .var ⟨⟨k⟩, f.domain⟩ := by
  induction drawn with
  | nil => simp
  | constant found _ ih => exact List.forall_mem_cons.mpr ⟨.inl ⟨_, _, found⟩, ih⟩
  | @fresh n vector vectors shares found _ ih =>
    refine List.forall_mem_cons.mpr ⟨.inr ⟨found, n, Nat.le_refl n, rfl⟩, ?_⟩
    intro x member
    refine (ih x member).imp_right ?_
    intro ⟨absent, k, above, drawn⟩
    exact ⟨absent, k, by omega, drawn⟩

private theorem Drawn.pairwise (drawn : Drawn f atoms n vectors shares) :
    shares.Pairwise fun x y => ∀ v, x.term = .var v → y.term ≠ .var v := by
  induction drawn with
  | nil => exact .nil
  | constant found _ ih =>
    refine List.pairwise_cons.mpr ⟨?_, ih⟩
    intro y _ v same
    have proper := isVariable_of_constantShares found
    dsimp only at same
    rw [same] at proper
    cases proper
  | @fresh n vector vectors shares found rest ih =>
    refine List.pairwise_cons.mpr ⟨?_, ih⟩
    intro y member v same other
    rcases rest.term y member with ⟨count, others, constant⟩ | ⟨_, k, above, drawn⟩
    · have proper := isVariable_of_constantShares constant
      rw [other] at proper
      cases proper
    · rw [drawn, ← same] at other
      have equal : k = n := by simpa using other
      omega

/-- The share that hands out a variable is the only one. -/
theorem Drawn.eq_of_term {v : Variable} (drawn : Drawn f atoms n vectors shares) {x y : Share} (first : x ∈ shares)
    (second : y ∈ shares) (left : x.term = .var v) (right : y.term = .var v) : x = y := by
  by_contra different
  let Apart (x y : Share) : Prop := x.term = .var v → y.term ≠ .var v
  have symmetric : Std.Symm Apart := ⟨fun x y apart right left => apart left right⟩
  have apart : shares.Pairwise Apart := drawn.pairwise.imp fun apart => apart v
  exact apart.forall first second different left right

end Drawn

section ConstantShares

variable {atoms : List Term} {v : Fin atoms.length → Nat}

theorem constantShares_ofFn (atoms : List Term) (v : Fin atoms.length → Nat) : constantShares atoms (List.ofFn v) =
    ((List.finRange atoms.length).filter fun j => !(atoms.get j).isVariable && decide (0 < v j)).map fun j =>
      ((atoms.get j), v j) := by
  have columns : atoms.zip (List.ofFn v) = (List.finRange atoms.length).map fun j => ((atoms.get j), v j) := by
    refine List.ext_getElem (by simp) ?_
    intro i inside _
    simp
  rw [constantShares, columns, List.filter_map]
  rfl

theorem constantShares_eq_nil (none : ∀ j : Fin atoms.length, (atoms.get j).isVariable = false → v j = 0) :
    constantShares atoms (List.ofFn v) = [] := by
  rw [constantShares_ofFn, List.map_eq_nil_iff, List.filter_eq_nil_iff]
  intro j _ passes
  simp only [Bool.and_eq_true, Bool.not_eq_true', decide_eq_true_eq] at passes
  exact Nat.ne_of_gt passes.2 (none j passes.1)

theorem constantShares_eq_singleton {j : Fin atoms.length} (constant : (atoms.get j).isVariable = false)
    (some : 0 < v j) (only : ∀ i : Fin atoms.length, (atoms.get i).isVariable = false → v i ≠ 0 → i = j) :
    constantShares atoms (List.ofFn v) = [((atoms.get j), v j)] := by
  have single :
      ((List.finRange atoms.length).filter fun j => !(atoms.get j).isVariable && decide (0 < v j)) = [j] := by
    refine List.perm_singleton.mp
      ((List.perm_ext_iff_of_nodup ((List.nodup_finRange _).filter _) (List.nodup_singleton j)).mpr
      fun i => ?_)
    simp only [List.mem_filter, List.mem_finRange, true_and, Bool.and_eq_true, Bool.not_eq_true', decide_eq_true_eq,
      List.mem_singleton]
    constructor
    · rintro ⟨plain, taken⟩
      exact only i plain (Nat.ne_of_gt taken)
    · intro same
      rw [same]
      exact ⟨constant, some⟩
  rw [constantShares_ofFn, single, List.map_singleton]

end ConstantShares

section Assemble

variable {f : FunctionSymbol} {chosen : List Share} {column : Nat}

/-- What the column receives can stand in the place of the atom. -/
structure Served (f : FunctionSymbol) (chosen : List Share) (atom : Term) (column : Nat) : Prop where
  some : received chosen column ≠ []
  sort : (Term.combined f (received chosen column)).sort = atom.sort
  constant : atom.isVariable = false → received chosen column = [atom]

theorem assemble_var {v : Variable} {rest : List Term} (θ : Substitution) (some : received chosen column ≠ []) :
    assemble f chosen column (.var v :: rest) θ =
      (θ.add v (Term.combined f (received chosen column))).toOption.bind (assemble f chosen (column + 1) rest) := by
  simp only [assemble]
  split
  next none => exact absurd none some
  next t single => rw [single, Term.combined]
  next ts several => rw [Term.combined.eq_2 f _ several]

private theorem assemble_constant {atom : Term} {rest : List Term} (θ : Substitution)
    (constant : atom.isVariable = false) (single : received chosen column = [atom]) :
    assemble f chosen column (atom :: rest) θ = assemble f chosen (column + 1) rest θ := by
  cases atom with
  | var v => cases constant
  | const c | node g args => simp [assemble, single]

/-- Atoms that are apart and served can be bound one after the other. -/
theorem exists_assemble {atoms : List Term} (θ : Substitution) (apart : atoms.Pairwise fun a b => (b == a) = false)
    (free : ∀ v, .var v ∈ atoms → v ∉ θ.domain) (served : ∀ p ∈ atoms.zipIdx column, Served f chosen p.1 p.2) :
    ∃ θ', assemble f chosen column atoms θ = some θ' ∧
      (∀ p ∈ atoms.zipIdx column, ∀ v, p.1 = .var v → θ'.image v = Term.combined f (received chosen p.2)) ∧
      ∀ v, .var v ∉ atoms → θ'.image v = θ.image v := by
  induction atoms generalizing column θ with
  | nil => exact ⟨θ, rfl, by simp, fun _ _ => rfl⟩
  | cons atom rest ih =>
    obtain ⟨first, later⟩ := List.pairwise_cons.mp apart
    rw [List.zipIdx_cons, List.forall_mem_cons] at served
    obtain ⟨here, others⟩ := served
    by_cases proper : atom.isVariable = true
    · obtain ⟨v, rfl⟩ := Term.exists_of_isVariable proper
      obtain ⟨θ₁, added, value, kept⟩ := Substitution.exists_add (free v (List.mem_cons_self ..)) here.sort
      have distinct : .var v ∉ rest := by
        intro member
        have same : (Term.var v == .var v) = false := first _ member
        rw [BEq.refl] at same
        cases same
      have free₁ : ∀ w, .var w ∈ rest → w ∉ θ₁.domain := by
        intro w member bound
        obtain ⟨t, binding⟩ := Substitution.mem_domain_iff.mp bound
        rcases Substitution.mem_bindings_of_add added binding with old | ⟨rfl, _⟩
        · exact free w (List.mem_cons_of_mem _ member) (Substitution.mem_domain_iff.mpr ⟨t, old⟩)
        · exact distinct member
      obtain ⟨θ', assembled, values, outside⟩ := ih θ₁ later free₁ others
      refine ⟨θ', by rw [assemble_var θ here.some, added]; exact assembled, ?_, fun w absent => ?_⟩
      · rw [List.zipIdx_cons, List.forall_mem_cons]
        refine ⟨fun w same => ?_, values⟩
        cases same
        rw [outside v distinct, value]
      · rw [List.mem_cons, not_or] at absent
        rw [outside w absent.2, kept w fun same => absent.1 (same ▸ rfl)]
    · have constant : atom.isVariable = false := Bool.not_eq_true _ ▸ proper
      obtain ⟨θ', assembled, values, outside⟩ :=
        ih θ later (fun w member => free w (List.mem_cons_of_mem _ member)) others
      refine ⟨θ', by
        rw [assemble_constant θ constant (here.constant constant)]; exact assembled, ?_, fun w absent => ?_⟩
      · rw [List.zipIdx_cons, List.forall_mem_cons]
        refine ⟨fun w same => ?_, values⟩
        dsimp only at same
        rw [same] at constant
        cases constant
      · exact outside w fun member => absent (List.mem_cons_of_mem _ member)

end Assemble

end Equational.AC
