import Equational.Proofs.ExpAC.Flat

/-! Powers and pairs of two terms. The laws are about no others, and a run on a problem that has no
others meets none, since a step keeps the number of arguments of an application and makes no applications
but to two terms. -/

namespace Equational

namespace ExpAC

open Search State

variable {setting : Setting} {signature : Signature} {known : FunctionSymbol → Prop} {problem : Problem}
  {interner : Interner} {state : State} {session : Session} {t : Term} {h symbol : FunctionSymbol} {args : List Term}

/-- Every power and every pair in the term is of two terms. -/
def Signature.isBinary (signature : Signature) (t : Term) : Bool :=
  t.everyNode fun h args => h != signature.exp && h != signature.g || args.length == 2

/-- So is every application of a symbol with the number of one of the two, which the rules do not tell from it. -/
def Signature.isBinaryByNumber (signature : Signature) (t : Term) : Bool :=
  t.everyNode fun h args => h.id != signature.exp.id && h.id != signature.g.id || args.length == 2

section Terms

private theorem isBinary_node : signature.isBinary (.node h args) = true ↔
    (h = signature.exp ∨ h = signature.g → args.length = 2) ∧ ∀ arg ∈ args, signature.isBinary arg = true := by
  rw [Signature.isBinary, Term.everyNode_node]
  refine and_congr_left fun _ => ?_
  simp only [Bool.or_eq_true, Bool.and_eq_true, bne_iff_ne, ne_eq, beq_iff_eq]
  tauto

private theorem byArity_isBinary (signature : Signature) : Term.ByArity (signature.isBinary · = true) :=
  Term.byArity_everyNode (fun lengths two => by rwa [← lengths]) fun _ _ _ => by simp

theorem byArity_isBinaryByNumber (signature : Signature) : Term.ByArity (signature.isBinaryByNumber · = true) :=
  Term.byArity_everyNode (fun lengths two => by rwa [← lengths]) fun _ _ _ => by simp

/-- Where symbols go by their numbers, it makes no difference what the test goes by. -/
theorem isBinaryByNumber_of_isBinary (consistent : Consistent known) (exp : known signature.exp)
    (g : known signature.g)
    (spelled : t.Over known) (binary : signature.isBinary t = true) : signature.isBinaryByNumber t = true := by
  induction t with
  | var v => exact Term.everyNode_var v
  | const c => exact Term.everyNode_const c
  | node h args ih =>
    obtain ⟨root, each⟩ := Term.over_node.mp spelled
    obtain ⟨two, inside⟩ := isBinary_node.mp binary
    refine Term.everyNode_node.mpr ⟨?_, fun arg member => ih arg member (each arg member) (inside arg member)⟩
    by_cases number : h.id = signature.exp.id ∨ h.id = signature.g.id
    · have law : h = signature.exp ∨ h = signature.g :=
        number.imp (consistent h _ root exp) (consistent h _ root g)
      simp [two law]
    · simp_all

theorem partsOf_ne_none (root : t = .node h args) (binary : signature.isBinaryByNumber t = true)
    (law : symbol = signature.exp ∨ symbol = signature.g) (number : h.id = symbol.id) :
    Signature.partsOf symbol t ≠ none := by
  subst root
  have two : args.length = 2 := by
    rcases law with rfl | rfl <;> simpa [number] using (Term.everyNode_node.mp binary).1
  obtain ⟨s, t, rfl⟩ := List.length_eq_two.mp two
  simp [Signature.partsOf, number]

end Terms

namespace State

def IsBinary (signature : Signature) (state : State) : Prop :=
  ∀ e ∈ state.definitions.equations, signature.isBinary e.rhs = true

end State

/-- In a run on a problem whose powers and pairs are of two terms, they are so throughout. -/
theorem Reached.binary (reached : Reached setting problem interner state session)
    (interned : ∀ v ∈ problem.vars, v.id.index < interner.variableCount)
    (binary : EverySide (setting.signature.isBinary · = true) problem.equations) : state.IsBinary setting.signature :=
  fun e member =>
    ((reached.flat interned binary (steady_of_byArity (byArity_isBinary _))).neat.definitions e member).right

end ExpAC

end Equational
