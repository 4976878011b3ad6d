import Equational.Proofs.ExpAC.Flattening
import Equational.Proofs.ExpAC.Preservation

/-! The flat form of a problem. It consists of definitions by shallow terms, each stated once, and
it has a solution wherever the problem has one: every name takes the value of the nested
application that it stands for. -/

namespace Equational

namespace ExpAC

open Search

variable {E : Term → Term → Prop} {P : Term → Prop} {signature : Signature} {known : FunctionSymbol → Prop}
  {session : Session}
  {m m' : Variable → Term} {n n' : Nat} {s t : Term} {out : Problem} {e : Equation} {fails : Failure → Prop}

section Definitions

structure Listing (P : Term → Prop) (out : Problem) : Prop where
  definitions : ∀ e ∈ out.equations, IsNaming P e
  apart : out.equations.Pairwise fun e d => (e == d) = false

private theorem Listing.define (listing : Listing P out) {v : Variable} (name : P (.var v)) (shallow : t.IsShallow)
    (holds : P t) :
    Listing P (out.insert ⟨.var v, t⟩) := by
  refine ⟨fun e member => ?_, Problem.pairwise_insert listing.apart⟩
  rcases Problem.mem_insert member with old | rfl
  · exact listing.definitions e old
  · exact ⟨rfl, name, shallow, holds⟩

variable (flattenable : Term.Flattenable P)
include flattenable

private theorem ends_freshNameable (holds : P t) :
    (freshVariable t.sort).Ends session (fun v _ => P (.var v)) fails :=
  ends_freshVariable t.sort fun _ _ => flattenable.name holds rfl

mutual

private theorem ends_flatten_listing (t : Term) (out : Problem) (session : Session) (holds : P t)
    (listing : Listing P out) :
    (flatten t out).Ends session (fun result _ => result.1.IsShallow ∧ P result.1 ∧ Listing P result.2) fails :=
  match t with
  | .var v => ends_pure ⟨Term.isShallow_of_isSimple rfl, holds, listing⟩
  | .const c => ends_pure ⟨Term.isShallow_of_isSimple rfl, holds, listing⟩
  | .node h args => by
    have inside := ends_flattenArguments_listing args out session (flattenable.argument holds) listing
    simp only [flatten]
    refine inside.bind ?_
    intro result after _ ⟨lengths, leaves, listing'⟩
    have shallow := Term.isShallow_app h fun arg member => (leaves arg member).1
    exact ends_pure ⟨shallow, flattenable.rebuild holds lengths leaves, listing'⟩
termination_by structural t

theorem ends_flattenArguments_listing (args : List Term) (out : Problem) (session : Session)
    (holds : ∀ arg ∈ args, P arg)
    (listing : Listing P out) : (flattenArguments args out).Ends session
      (fun result _ => result.1.length = args.length ∧
      (∀ arg ∈ result.1, arg.isSimple = true ∧ P arg) ∧ Listing P result.2) fails :=
  match args with
  | [] => ends_pure ⟨rfl, List.forall_mem_nil _, listing⟩
  | .var v :: args => by
    obtain ⟨first, rest⟩ := List.forall_mem_cons.mp holds
    have later := ends_flattenArguments_listing args out session rest listing
    rw [flattenArguments]
    · refine later.bind ?_
      intro result after _ ⟨lengths, leaves, listing'⟩
      exact ends_pure ⟨by simp [lengths], List.forall_mem_cons.mpr ⟨⟨rfl, first⟩, leaves⟩, listing'⟩
    · simp
  | .const c :: args => by
    obtain ⟨first, rest⟩ := List.forall_mem_cons.mp holds
    have later := ends_flattenArguments_listing args out session rest listing
    rw [flattenArguments]
    · refine later.bind ?_
      intro result after _ ⟨lengths, leaves, listing'⟩
      exact ends_pure ⟨by simp [lengths], List.forall_mem_cons.mpr ⟨⟨rfl, first⟩, leaves⟩, listing'⟩
    · simp
  | .node h inner :: args => by
    obtain ⟨first, rest⟩ := List.forall_mem_cons.mp holds
    have whole := ends_flatten_listing (.node h inner) out session first listing
    have later := fun out session => ends_flattenArguments_listing args out session rest
    simp only [flattenArguments]
    refine whole.bind ?_
    intro result middle _ ⟨shallow, flat, listing'⟩
    refine (ends_freshNameable flattenable first).bind ?_
    intro v drawn _ name
    refine (later _ drawn (listing'.define name shallow flat)).bind ?_
    intro result' after _ ⟨lengths, leaves, listing''⟩
    exact ends_pure ⟨by simp [lengths], List.forall_mem_cons.mpr ⟨⟨rfl, name⟩, leaves⟩, listing''⟩
termination_by structural args

end

private theorem ends_flattenEquation_listing (left : P e.lhs) (right : P e.rhs) (listing : Listing P out) :
    (flattenEquation e out).Ends session (fun result _ => Listing P result)
      (fun failure => ∃ s t, failure = .sortMismatch s t) := by
  obtain ⟨s, t⟩ := e
  dsimp only at left right
  have defines {x : Variable} {t : Term} (name : P (.var x)) (holds : P t) :
      (flattenEquation.define out x t).Ends session (fun result _ => Listing P result)
        (fun failure => ∃ s t, failure = .sortMismatch s t) := by
    simp only [flattenEquation.define]
    refine (ends_flatten_listing flattenable t out session holds listing).bind ?_
    intro result after _ ⟨shallow, flat, listing'⟩
    exact ends_pure (listing'.define name shallow flat)
  simp only [flattenEquation]
  by_cases sorts : (s.sort != t.sort) = true
  · simp only [sorts]
    exact ends_throw_bind ⟨_, _, rfl⟩
  · simp only [sorts, Bool.false_eq_true, ↓reduceIte]
    split
    next _ x => exact defines left right
    next s x _ => exact defines right left
    next =>
      refine (ends_freshNameable flattenable left).bind ?_
      intro v begun _ name
      refine (ends_flatten_listing flattenable s out begun left listing).bind ?_
      intro first middle _ ⟨shallow₁, flat₁, listing₁⟩
      refine (ends_flatten_listing flattenable t first.2 middle right listing₁).bind ?_
      intro second after _ ⟨shallow₂, flat₂, listing₂⟩
      exact ends_pure ((listing₂.define name shallow₁ flat₁).define name shallow₂ flat₂)

/-- The flat form of a problem is neat, with or without a solution, and only sorts can keep an equation from it. -/
theorem ends_purify_neat {problem : Problem} (terms : EverySide P problem.equations) :
    (purify problem).Ends session (fun state after => state.Neat P after.names)
      (fun failure => ∃ s t, failure = .sortMismatch s t) := by
  have start : Listing P {} := ⟨nofun, .nil⟩
  simp only [purify]
  refine (ends_foldlM (I := fun out _ => Listing P out) start ?_).bind ?_
  · intro e member out during _ listing
    have sides := terms e (List.mem_of_mem_filter member)
    exact ends_flattenEquation_listing flattenable sides.1 sides.2 listing
  · intro flat after _ listing
    refine ends_pure ⟨fun e member => ?_, fun e member => ?_, listing.apart.filter _, ?_, ?_⟩
    · exact listing.definitions e (List.mem_of_mem_filter member)
    · simpa using (List.mem_filter.mp member).2
    · simp [Substitution.empty]
    · simp [Substitution.empty]

end Definitions

section Values

/-- Definitions over variables in use that hold under an assignment. -/
structure Described (E : Term → Term → Prop) (P : Term → Prop) (known : FunctionSymbol → Prop) (n : Nat)
    (m : Variable → Term) (out : Problem) : Prop where
  stated : EverySide (Stated known n) out.equations
  suits : Term.Suits P m
  holds : ∀ e ∈ out.equations, e.HoldsIn E m

/-- The assignment extends the one before, and terms that are put in the place of others agree with them. -/
structure Names (E : Term → Term → Prop) (P : Term → Prop) (known : FunctionSymbol → Prop) (n : Nat)
    (m : Variable → Term) (n' : Nat) (m' : Variable → Term) (terms flat : List Term) (out : Problem) : Prop where
  described : Described E P known n' m' out
  extended : Extends n m m'
  equal : List.Forall₂ (fun s t => E (s.instantiate m') (t.instantiate m')) terms flat

variable (congruence : Term.Congruence E)
include congruence

private theorem Described.insert (described : Described E P known n m out) (left : Stated known n e.lhs)
    (right : Stated known n e.rhs) (holds : e.HoldsIn E m) : Described E P known n m (out.insert e) :=
  ⟨everySide_insert described.stated left right, described.suits,
    (Problem.holdsIn_insert_iff congruence).mpr ⟨described.holds, holds⟩⟩

private theorem Described.update {v : Variable} (described : Described E P known n m out) (grown : n ≤ n')
    (fresh : n ≤ v.id.index)
    (value : P t) (sort : t.sort = v.sort) : Described E P known n' (Function.update m v t) out := by
  refine ⟨everySide_mono described.stated grown, described.suits.update value sort, fun e member => ?_⟩
  have sides := described.stated e member
  exact ((Extends.refl n m).update fresh t).holdsIn congruence sides.1.vars sides.2.vars (described.holds e member)

private theorem equal_of_given (given : Given known n t) (extended : Extends n m m') :
    E (t.instantiate m') (t.instantiate m) :=
  extended.instantiate congruence given.vars

private theorem holdsIn_name {v : Variable} {flat : Term} {n₁ : Nat} {m₁ m₂ : Variable → Term}
    (value : E (m₂ v) (t.instantiate m))
    (given : Given known n t) (extended : Extends n m m₁) (equal : E (t.instantiate m₁) (flat.instantiate m₁))
    (flatGiven : Given known n₁ flat) (extended' : Extends n₁ m₁ m₂) : (⟨.var v, flat⟩ : Equation).HoldsIn E m₂ := by
  have earlier := congruence.symm (equal_of_given congruence given extended)
  have later := congruence.symm (equal_of_given congruence flatGiven extended')
  exact congruence.trans value (congruence.trans earlier (congruence.trans equal later))

variable (nameable : Term.Nameable P)
include nameable

mutual

private theorem ends_flatten_names (t : Term) (out : Problem) (session : Session) (m : Variable → Term) (holds : P t)
    (given : Given known session.names t) (described : Described E P known session.names m out) :
    (flatten t out).Ends session
      (fun result after => Flattened E known after.names out [t] [result.1] result.2 ∧
        ∃ m', Names E P known session.names m after.names m' [t] [result.1] result.2) (fun _ => False) :=
  match t with
  | .var v => ends_pure ⟨.keep congruence (given.stated rfl) (.nil described.stated), m, described, .refl _ m,
      .cons (congruence.refl _) .nil⟩
  | .const c => ends_pure ⟨.keep congruence (given.stated rfl) (.nil described.stated), m, described, .refl _ m,
      .cons (congruence.refl _) .nil⟩
  | .node h args => by
    have inside := ends_flattenArguments_names args out session m (nameable.argument holds) given.argument described
    simp only [flatten]
    refine inside.bind ?_
    rintro result after _ ⟨flattened, m', named⟩
    refine ends_pure ⟨flattened.app congruence (Term.over_node.mp given.spelled).1, m', named.described,
      named.extended, .cons ?_ .nil⟩
    rw [Term.instantiate_node]
    exact congruence.trans (congruence.app_map named.equal)
      (congruence.symm (congruence.of_shape (Term.instantiate_app m' h result.1)))
termination_by structural t

theorem ends_flattenArguments_names (args : List Term) (out : Problem) (session : Session) (m : Variable → Term)
    (holds : ∀ arg ∈ args, P arg) (given : ∀ arg ∈ args, Given known session.names arg)
    (described : Described E P known session.names m out) : (flattenArguments args out).Ends session
      (fun result after => Flattened E known after.names out args result.1 result.2 ∧
        ∃ m', Names E P known session.names m after.names m' args result.1 result.2) (fun _ => False) :=
  match args with
  | [] => ends_pure ⟨.nil described.stated, m, described, .refl _ m, .nil⟩
  | .var v :: args => by
    obtain ⟨_, rest⟩ := List.forall_mem_cons.mp holds
    obtain ⟨here, there⟩ := List.forall_mem_cons.mp given
    have later := ends_flattenArguments_names args out session m rest there described
    rw [flattenArguments]
    · refine later.bind ?_
      rintro result after grown ⟨flattened, m', named⟩
      exact ends_pure ⟨flattened.keep congruence (Stated.later (here.stated rfl) grown), m', named.described,
        named.extended, .cons (congruence.refl _) named.equal⟩
    · simp
  | .const c :: args => by
    obtain ⟨_, rest⟩ := List.forall_mem_cons.mp holds
    obtain ⟨here, there⟩ := List.forall_mem_cons.mp given
    have later := ends_flattenArguments_names args out session m rest there described
    rw [flattenArguments]
    · refine later.bind ?_
      rintro result after grown ⟨flattened, m', named⟩
      exact ends_pure ⟨flattened.keep congruence (Stated.later (here.stated rfl) grown), m', named.described,
        named.extended, .cons (congruence.refl _) named.equal⟩
    · simp
  | .node h inner :: args => by
    obtain ⟨first, rest⟩ := List.forall_mem_cons.mp holds
    obtain ⟨here, there⟩ := List.forall_mem_cons.mp given
    have whole := ends_flatten_names (.node h inner) out session m first here described
    have later := fun out session m => ends_flattenArguments_names args out session m rest
    simp only [flattenArguments]
    refine whole.bind ?_
    rintro result middle grown ⟨flattened, m', named⟩
    refine (ends_freshNamed h.range).bind ?_
    rintro v drawn _ ⟨rfl, names⟩
    generalize same : (⟨⟨middle.names⟩, h.range⟩ : Variable) = v
    have fresh : middle.names ≤ v.id.index := by rw [← same]
    have inUse : InUse drawn.names v := by simp [InUse, ← same, names]
    have wider : middle.names ≤ drawn.names := by omega
    have flatStated := flattened.stated _ (List.mem_singleton_self _)
    -- The name takes the value that the application has so far; later names do not change it.
    obtain ⟨value, sort⟩ := nameable.instantiate named.described.suits first
    have sort' : ((Term.node h inner).instantiate m').sort = v.sort := by rw [sort, ← same]; rfl
    have described' := named.described.update congruence wider fresh value sort'
    have extended := (Extends.refl middle.names m').update fresh ((Term.node h inner).instantiate m')
    have valueV : Function.update m' v ((Term.node h inner).instantiate m') v = (Term.node h inner).instantiate m' :=
      Function.update_self ..
    generalize Function.update m' v ((Term.node h inner).instantiate m') = m₁ at described' extended valueV
    have equal := (List.forall₂_cons.mp named.equal).1
    have definition : (⟨.var v, result.1⟩ : Equation).HoldsIn E m₁ :=
      holdsIn_name congruence (by rw [valueV]; exact congruence.refl _) (here.later grown)
        (.refl _ _) equal flatStated.given extended
    have described₁ := described'.insert congruence (e := ⟨.var v, result.1⟩) (.var inUse)
      (flatStated.later wider) definition
    have there' : ∀ arg ∈ args, Given known drawn.names arg := fun arg member => (there arg member).later (by omega)
    refine (later (result.2.insert ⟨.var v, result.1⟩) drawn m₁ there' described₁).bind ?_
    rintro rest' after grown₂ ⟨flattened', m₂, named₂⟩
    have across := named.extended.trans grown (extended.trans wider named₂.extended)
    have old : E ((Term.node h inner).instantiate m₂) ((Term.node h inner).instantiate m') :=
      equal_of_given congruence (here.later grown) (extended.trans wider named₂.extended)
    have named' : Stated known after.names (.var v) := .var (Nat.lt_of_lt_of_le inUse grown₂)
    refine ends_pure ⟨flattened.name congruence (named'.vars v (by simp [Term.vars])) flattened', m₂,
      named₂.described, across, .cons ?_ named₂.equal⟩
    rw [Term.instantiate, named₂.extended v inUse, valueV]
    exact old
termination_by structural args

end

def Continues (E : Term → Term → Prop) (P : Term → Prop) (known : FunctionSymbol → Prop) (n : Nat)
    (m : Variable → Term) (n' : Nat) (out : Problem) : Prop :=
  ∃ m', Described E P known n' m' out ∧ Extends n m m'

private theorem ends_define_continues {x : Variable} (holds : P t) (inUse : InUse session.names x)
    (given : Given known session.names t)
    (described : Described E P known session.names m out) (equal : E (m x) (t.instantiate m)) :
    (flattenEquation.define out x t).Ends session
      (fun result after => Continues E P known session.names m after.names result) (fun _ => False) := by
  simp only [flattenEquation.define]
  refine (ends_flatten_names congruence nameable t out session m holds given described).bind ?_
  rintro result after grown ⟨flattened, m', named⟩
  have value := (List.forall₂_cons.mp named.equal).1
  have stated := flattened.stated _ (List.mem_singleton_self _)
  have definition : (⟨.var x, result.1⟩ : Equation).HoldsIn E m' :=
    holdsIn_name congruence (by rwa [named.extended x inUse]) given named.extended value stated.given (.refl _ _)
  have name : Stated known after.names (.var x) := .var (Nat.lt_of_lt_of_le inUse grown)
  exact ends_pure ⟨m', named.described.insert congruence name stated definition, named.extended⟩

private theorem ends_flattenBoth_continues (holds : P s) (holds' : P t) (left : Given known session.names s)
    (right : Given known session.names t) (described : Described E P known session.names m out)
    (equal : E (s.instantiate m) (t.instantiate m)) :
    Ends (do
      let v ← freshVariable s.sort
      let (left, out) ← flatten s out
      let (right, out) ← flatten t out
      return (out.insert ⟨.var v, left⟩).insert ⟨.var v, right⟩) session
      (fun result after => Continues E P known session.names m after.names result) (fun _ => False) := by
  refine (ends_freshNamed s.sort).bind ?_
  rintro v start _ ⟨rfl, names⟩
  generalize same : (⟨⟨session.names⟩, s.sort⟩ : Variable) = v
  have grown : session.names ≤ start.names := by omega
  have fresh : session.names ≤ v.id.index := by rw [← same]
  have inUse : InUse start.names v := by simp [InUse, ← same, names]
  obtain ⟨regular, sort⟩ := nameable.instantiate described.suits holds
  have sort' : (s.instantiate m).sort = v.sort := by rw [sort, ← same]
  have described₀ := described.update congruence grown fresh regular sort'
  have extended₀ := (Extends.refl session.names m).update fresh (s.instantiate m)
  have valueV : Function.update m v (s.instantiate m) v = s.instantiate m := Function.update_self ..
  generalize Function.update m v (s.instantiate m) = m₀ at described₀ extended₀ valueV
  refine (ends_flatten_names congruence nameable s out start m₀ holds (left.later grown) described₀).bind ?_
  rintro first middle grown₁ ⟨flattened₁, m₁, named₁⟩
  have right₁ := right.later (Nat.le_trans grown grown₁)
  refine (ends_flatten_names congruence nameable t first.2 middle m₁ holds' right₁ named₁.described).bind ?_
  rintro second after grown₂ ⟨flattened₂, m₂, named₂⟩
  have across := extended₀.trans grown (named₁.extended.trans grown₁ named₂.extended)
  have name : Stated known after.names (.var v) := .var (Nat.lt_of_lt_of_le inUse (by omega))
  have flatStated₁ := flattened₁.stated _ (List.mem_singleton_self _)
  have flatStated₂ := flattened₂.stated _ (List.mem_singleton_self _)
  have value : m₂ v = s.instantiate m := by
    rw [named₂.extended v (Nat.lt_of_lt_of_le inUse grown₁), named₁.extended v inUse, valueV]
  have holds₁ : (⟨.var v, first.1⟩ : Equation).HoldsIn E m₂ :=
    holdsIn_name congruence (by rw [value]; exact congruence.refl _) left (extended₀.trans grown named₁.extended)
      (List.forall₂_cons.mp named₁.equal).1 flatStated₁.given named₂.extended
  have holds₂ : (⟨.var v, second.1⟩ : Equation).HoldsIn E m₂ :=
    holdsIn_name congruence (by rwa [value]) right across (List.forall₂_cons.mp named₂.equal).1
      flatStated₂.given (.refl _ _)
  exact ends_pure ⟨m₂, (named₂.described.insert congruence name (flatStated₁.later grown₂) holds₁).insert
    congruence name
    flatStated₂ holds₂, across⟩

private theorem ends_flattenEquation_continues (sides : P e.lhs ∧ P e.rhs) (left : Given known session.names e.lhs)
    (right : Given known session.names e.rhs) (described : Described E P known session.names m out)
    (holds : e.HoldsIn E m) (sorts : e.lhs.sort = e.rhs.sort) : (flattenEquation e out).Ends session
      (fun result after => Continues E P known session.names m after.names result) (fun _ => False) := by
  obtain ⟨s, t⟩ := e
  have agree : (s.sort != t.sort) = false := by simpa using sorts
  simp only [flattenEquation, agree, Bool.false_eq_true, ↓reduceIte]
  split
  next _ x =>
    exact ends_define_continues congruence nameable sides.2 (left.vars x (by simp [Term.vars])) right described holds
  next s x _ =>
    exact ends_define_continues congruence nameable sides.1 (right.vars x (by simp [Term.vars])) left described
      (congruence.symm holds)
  next s t _ _ => exact ends_flattenBoth_continues congruence nameable sides.1 sides.2 left right described holds

private theorem ends_flattenEquations_continues {equations : List Equation} (terms : EverySide P equations)
    (given : EverySide (Given known session.names) equations) (described : Described E P known session.names m out)
    (holds : ∀ e ∈ equations, e.HoldsIn E m) (sorts : ∀ e ∈ equations, e.lhs.sort = e.rhs.sort) :
    (equations.foldlM (fun out e => flattenEquation e out) out).Ends session
      (fun result after => Continues E P known session.names m after.names result) (fun _ => False) := by
  induction equations generalizing out session m with
  | nil => exact ends_pure ⟨m, described, .refl _ m⟩
  | cons e equations ih =>
    rw [List.foldlM_cons]
    obtain ⟨firstTerms, restTerms⟩ := List.forall_mem_cons.mp terms
    obtain ⟨firstGiven, restGiven⟩ := List.forall_mem_cons.mp given
    obtain ⟨firstHolds, restHolds⟩ := List.forall_mem_cons.mp holds
    obtain ⟨firstSorts, restSorts⟩ := List.forall_mem_cons.mp sorts
    refine (ends_flattenEquation_continues congruence nameable firstTerms firstGiven.1 firstGiven.2
      described firstHolds
      firstSorts).bind ?_
    rintro middle after grown ⟨m', described', extended⟩
    have holds' : ∀ d ∈ equations, d.HoldsIn E m' := fun d member =>
      extended.holdsIn congruence (restGiven d member).1.vars (restGiven d member).2.vars (restHolds d member)
    refine (ih restTerms (everySide_later restGiven grown) described' holds' restSorts).mono ?_ fun _ fails => fails
    rintro result last _ ⟨m'', described'', extended'⟩
    exact ⟨m'', described'', extended.trans grown extended'⟩

/-- The flat form of a problem with a solution has a solution that agrees with it on the variables in use. -/
theorem ends_purify_extends {problem : Problem} (terms : EverySide P problem.equations)
    (given : EverySide (Given known session.names) problem.equations) (suits : Term.Suits P m)
    (holds : ∀ e ∈ problem.equations, e.HoldsIn E m) (sorts : ∀ e ∈ problem.equations, e.lhs.sort = e.rhs.sort) :
    (purify problem).Ends session
      (fun state _ => ∃ m', Term.Suits P m' ∧ Extends session.names m m' ∧ state.HoldsIn E m') (fun _ => False) := by
  have start : Described E P known session.names m {} := ⟨everySide_nil, suits, nofun⟩
  simp only [purify]
  refine (ends_flattenEquations_continues congruence nameable (everySide_filter terms _)
    (everySide_filter given _) start
    (fun e member => holds e (List.mem_of_mem_filter member)) fun e member =>
      sorts e (List.mem_of_mem_filter member)).bind ?_
  rintro flat after _ ⟨m', described, extended⟩
  refine ends_pure ⟨m', described.suits, extended, fun e member => described.holds e (List.mem_of_mem_filter member),
    fun v => ?_⟩
  change E (m' v) ((Substitution.empty.image v).instantiate m')
  rw [Substitution.image_empty]
  exact congruence.refl _

end Values

private theorem suits_iff_regularOn : Term.Suits (·.isRegular signature.f = true) m ↔ RegularOn signature m := by
  constructor
  · intro suits v sort
    exact (suits v (Term.isRegular_var.mpr sort)).1
  · intro regular v named
    have value := regular v (Term.isRegular_var.mp named)
    exact ⟨value, (Term.sort_of_isRegular value).trans (Term.isRegular_var.mp named).symm⟩

/-- The flat form of a problem over regular terms with a solution is a state with a solution. -/
theorem ends_purify_inherits (sorted : signature.OneSorted) {problem : Problem}
    (terms : EverySide (Term.isRegular signature.f · = true) problem.equations)
    (given : EverySide (Given known session.names) problem.equations) (regular : RegularOn signature m)
    (holds : ∀ e ∈ problem.equations, e.HoldsModulo signature m) : (purify problem).Ends session
      (fun state after => State.Inherits signature session.names m after.names state) (fun _ => False) := by
  have nameable := Term.nameable_isRegular sorted.f
  have sorts : ∀ e ∈ problem.equations, e.lhs.sort = e.rhs.sort := fun e member =>
    (Term.sort_of_isRegular (terms e member).1).trans (Term.sort_of_isRegular (terms e member).2).symm
  have extends' := ends_purify_extends (EqualModulo.congruence signature) nameable terms given
    (suits_iff_regularOn.mpr regular)
    holds sorts
  refine ((ends_purify_neat nameable.flattenable terms).and extends').mono ?_ fun _ fails => fails.2
  rintro state after _ ⟨neat, m', suits, extended, holds'⟩
  exact ⟨m', ⟨State.tidy_iff_neat.mpr neat, State.holds_iff_holdsIn.mpr holds',
    suits_iff_regularOn.mp suits⟩, extended⟩

end ExpAC

end Equational
