import Equational.Proofs.Failure
import Equational.Proofs.Term.Canonical
import Mathlib.Data.List.Dedup

/-! Substitutions as assignments. Applying a substitution is instantiating by the images of the
variables, composing is applying twice, and a unifier is an assignment under which the bindings
of another substitution hold. -/

namespace Equational.Substitution

variable {σ τ : Substitution} {v : Variable} {t : Term}

theorem find?_eq_some_iff : σ.find? v = some t ↔ (v, t) ∈ σ.bindings := by
  constructor
  · intro found
    obtain ⟨before, after, shape, _⟩ := List.lookup_eq_some_iff.mp found
    simp [shape]
  · intro member
    obtain ⟨before, after, shape⟩ := List.append_of_mem member
    refine List.lookup_eq_some_iff.mpr ⟨before, after, shape, ?_⟩
    intro p earlier
    have distinct := σ.distinct
    rw [shape, List.map_append, List.map_cons, List.nodup_append] at distinct
    have apart := distinct.2.2 p.1 (List.mem_map_of_mem earlier) v (List.mem_cons_self ..)
    simpa using Ne.symm apart

theorem mem_domain_iff : v ∈ σ.domain ↔ ∃ t, (v, t) ∈ σ.bindings := by
  simp [domain]

theorem image_of_mem (member : (v, t) ∈ σ.bindings) : σ.image v = t := by
  rw [image, find?_eq_some_iff.mpr member, Option.getD_some]

theorem image_mem_or (σ : Substitution) (v : Variable) :
    (v, σ.image v) ∈ σ.bindings ∨ v ∉ σ.domain ∧ σ.image v = .var v := by
  by_cases bound : v ∈ σ.domain
  · obtain ⟨t, member⟩ := mem_domain_iff.mp bound
    exact .inl (by rwa [image_of_mem member])
  · exact .inr ⟨bound, image_of_not_mem bound⟩

@[simp] theorem image_empty (v : Variable) : empty.image v = .var v := rfl

theorem rebuild_eq_instantiate (σ : Substitution) (t : Term) : σ.rebuild t = t.instantiate σ.image := by
  have lists : ∀ args : List Term, rebuildList σ args = args.map σ.rebuild := by
    intro args
    induction args with
    | nil => rfl
    | cons arg args ih => rw [rebuildList, ih, List.map_cons]
  induction t with
  | var v => rfl
  | const c => rfl
  | node f args ih =>
    rw [rebuild, lists, Term.instantiate_node]
    congr 1
    exact List.map_inj_left.mpr ih

theorem image_eq_var_of_isEmpty (none : σ.isEmpty = true) : σ.image = Term.var := by
  funext v
  refine image_of_not_mem ?_
  simp [domain, List.isEmpty_iff.mp none]

@[simp] theorem apply_var (σ : Substitution) (v : Variable) : σ.apply (.var v) = σ.image v := by
  simp only [apply]
  split
  next none => rw [image_eq_var_of_isEmpty none]
  next => rfl

@[simp] theorem apply_const (σ : Substitution) (c : Constant) : σ.apply (.const c) = .const c := by
  simp only [apply]
  split <;> rfl

/-- Applying is instantiating; only the empty substitution spares a term the rebuilding. -/
theorem apply_eq_or (σ : Substitution) (t : Term) :
    σ.apply t = t.instantiate σ.image ∨ σ.image = Term.var ∧ σ.apply t = t := by
  simp only [apply]
  split
  next none => exact .inr ⟨image_eq_var_of_isEmpty none, rfl⟩
  next => exact .inl (rebuild_eq_instantiate σ t)

/-- A canonical term is what the empty substitution would rebuild it to. -/
theorem apply_eq_instantiate (σ : Substitution) (canonical : t.isCanonical = true) :
    σ.apply t = t.instantiate σ.image := by
  rcases σ.apply_eq_or t with rebuilt | ⟨none, kept⟩
  · exact rebuilt
  · rw [kept, none, Term.instantiate_var canonical]

theorem shape_apply (σ : Substitution) (canonical : t.isCanonical = true) :
    (σ.apply t).shape = (t.instantiate σ.image).shape :=
  congrArg Term.shape (σ.apply_eq_instantiate canonical)

/-- A canonical term without bound variables is left as it stands. -/
theorem apply_eq_self (canonical : t.isCanonical = true) (free : ∀ v ∈ t.vars, v ∉ σ.domain) : σ.apply t = t := by
  rw [σ.apply_eq_instantiate canonical, Term.instantiate_congr_on fun v occurs => image_of_not_mem (free v occurs),
    Term.instantiate_var canonical]

/-- Applying respects equality, also where an application rebuilds what stood otherwise. -/
theorem shape_apply_congr {s t : Term} (same : s.shape = t.shape) (σ : Substitution) :
    (σ.apply s).shape = (σ.apply t).shape := by
  simp only [apply]
  split
  · exact same
  · rw [rebuild_eq_instantiate, rebuild_eq_instantiate]
    exact Term.instantiate_congr same σ.image

/-- An instance of a term under a substitution is an instance of the term. -/
theorem instantiate_apply (σ : Substitution) (m : Variable → Term) (t : Term) :
    ((σ.apply t).instantiate m).shape = (t.instantiate fun v => (σ.image v).instantiate m).shape := by
  rcases σ.apply_eq_or t with rebuilt | ⟨none, kept⟩
  · rw [rebuilt, Term.instantiate_instantiate]
  · rw [kept, none]
    rfl

theorem exists_of_mem_range (member : t ∈ σ.range) : ∃ v, (v, t) ∈ σ.bindings := by
  obtain ⟨p, inside, rfl⟩ := List.mem_map.mp member
  exact ⟨p.1, inside⟩

theorem mem_range_of_mem (member : (v, t) ∈ σ.bindings) : t ∈ σ.range :=
  List.mem_map_of_mem (f := Prod.snd) member

section Hereditary

variable {P : Term → Prop} (hereditary : Term.Hereditary P)
include hereditary

theorem image_hereditary (range : ∀ t ∈ σ.range, P t) (v : Variable) : P (σ.image v) := by
  rcases σ.image_mem_or v with bound | ⟨_, free⟩
  · exact range _ (mem_range_of_mem bound)
  · rw [free]
    exact hereditary.var v

theorem apply_hereditary (range : ∀ t ∈ σ.range, P t) (holds : P t) : P (σ.apply t) := by
  rcases σ.apply_eq_or t with rebuilt | ⟨_, kept⟩
  · rw [rebuilt]
    exact hereditary.instantiate holds (image_hereditary hereditary range)
  · rwa [kept]

end Hereditary

end Equational.Substitution

namespace Equational.Term

/-- A property that passes to arguments, and to what a substitution by terms with the property makes of a term. -/
structure Substitutive (P : Term → Prop) : Prop where
  argument : ∀ {f : FunctionSymbol} {args : List Term}, P (.node f args) → ∀ arg ∈ args, P arg
  apply : ∀ {σ : Substitution} {t : Term}, (∀ u ∈ σ.range, P u) → P t → P (σ.apply t)

theorem Hereditary.substitutive {P : Term → Prop} (hereditary : Hereditary P) : Substitutive P :=
  ⟨hereditary.argument, Substitution.apply_hereditary hereditary⟩

end Equational.Term

namespace Equational.Substitution

variable {σ τ : Substitution} {v : Variable} {t : Term}

/-- Every binding keeps the sort of its variable. -/
def SortPreserving (σ : Substitution) : Prop :=
  ∀ p ∈ σ.bindings, p.2.sort = p.1.sort

instance : Decidable σ.SortPreserving :=
  inferInstanceAs (Decidable (∀ p ∈ σ.bindings, p.2.sort = p.1.sort))

theorem SortPreserving.image (sorted : σ.SortPreserving) (v : Variable) : (σ.image v).sort = v.sort := by
  rcases σ.image_mem_or v with bound | ⟨_, free⟩
  · exact sorted _ bound
  · rw [free, Term.sort]

/-- Terms keep their sorts where no symbol can collapse. -/
theorem SortPreserving.apply (sorted : σ.SortPreserving) (kept : ∀ g ∈ t.symbols, g.theory ≠ .idempotent) :
    (σ.apply t).sort = t.sort := by
  rcases σ.apply_eq_or t with rebuilt | ⟨_, same⟩
  · rw [rebuilt, Term.sort_instantiate sorted.image kept]
  · rw [same]

def Unifies (σ : Substitution) (equations : List Equation) : Prop :=
  ∀ e ∈ equations, (σ.apply e.lhs == σ.apply e.rhs) = true

instance {equations : List Equation} : Decidable (σ.Unifies equations) :=
  inferInstanceAs (Decidable (∀ e ∈ equations, (σ.apply e.lhs == σ.apply e.rhs) = true))

def tabulate (m : Variable → Term) (vars : List Variable) : Substitution where
  bindings := vars.dedup.map fun v => (v, m v)
  distinct := by simpa [Function.comp_def] using List.nodup_dedup vars

theorem domain_tabulate {m : Variable → Term} {vars : List Variable} : v ∈ (tabulate m vars).domain ↔ v ∈ vars := by
  simp [domain, tabulate, Function.comp_def]

theorem image_tabulate {m : Variable → Term} {vars : List Variable} (member : v ∈ vars) :
    (tabulate m vars).image v = m v :=
  image_of_mem (List.mem_map.mpr ⟨v, List.mem_dedup.mpr member, rfl⟩)

theorem sortPreserving_tabulate {m : Variable → Term} (sorted : ∀ v, (m v).sort = v.sort) (vars : List Variable) :
    (tabulate m vars).SortPreserving := by
  intro p member
  obtain ⟨v, _, rfl⟩ := List.mem_map.mp member
  exact sorted v

/-- On the given variables, the substitution is an instance of the other by terms of the right sorts. -/
def IsInstanceOn (vars : List Variable) (τ σ : Substitution) : Prop :=
  ∃ ρ : Substitution, ρ.SortPreserving ∧ ∀ v ∈ vars, (τ.apply (.var v) == ρ.apply (σ.apply (.var v))) = true

/-- The values that make one substitution an instance of another are those of a substitution. -/
theorem isInstanceOn_of_values {m : Variable → Term} {vars : List Variable} (sorted : ∀ v, (m v).sort = v.sort)
    (canonical : ∀ v ∈ vars, (σ.image v).isCanonical = true)
    (values : ∀ v ∈ vars, (τ.image v).shape = ((σ.image v).instantiate m).shape) : τ.IsInstanceOn vars σ := by
  refine ⟨.tabulate m (vars.flatMap fun v => (σ.image v).vars), sortPreserving_tabulate sorted _, fun v member => ?_⟩
  rw [Term.beq_iff_shape, apply_var, apply_var, values v member, shape_apply _ (canonical v member)]
  refine Term.instantiate_congr_left fun w occurs => ?_
  rw [image_tabulate (List.mem_flatMap.mpr ⟨v, member, occurs⟩)]

/-- Adding a binding adds that one or none. -/
theorem mem_bindings_of_add {σ' : Substitution} {w : Variable} {u : Term} (added : σ.add v t = .ok σ')
    (member : (w, u) ∈ σ'.bindings) : (w, u) ∈ σ.bindings ∨ w = v ∧ u = t := by
  obtain ⟨_, _, bound⟩ := exists_of_bind_eq_ok added
  split at bound
  next u' _ =>
    split at bound
    · cases bound
      exact .inl member
    · cases bound
  next =>
    cases bound
    split at member
    · exact .inl member
    · rw [insertNew] at member
      split at member
      · exact .inl member
      · simpa [extend] using member

theorem eq_var_of_beq (identity : (t == .var v) = true) : t = .var v := by
  have same := Term.beq_iff_shape.mp identity
  cases t <;> simp_all [Term.shape]

/-- A free variable can be bound to a term of its sort, and no other variable changes. -/
theorem exists_add (free : v ∉ σ.domain) (sorted : t.sort = v.sort) :
    ∃ σ', σ.add v t = .ok σ' ∧ σ'.image v = t ∧ ∀ w, w ≠ v → σ'.image w = σ.image w := by
  have added : σ.add v t = .ok (if t == .var v then σ else σ.insertNew v t) := by
    rw [add, checkSort, if_pos (by simp [sorted]), find?_eq_none_iff.mpr free]
    rfl
  refine ⟨_, added, ?_⟩
  split
  next identity =>
    rw [image_of_not_mem free, eq_var_of_beq identity]
    exact ⟨rfl, fun _ _ => rfl⟩
  next =>
    rw [insertNew, dif_neg free]
    have last : (v, t) ∈ (σ.extend v t free).bindings := List.mem_append_right _ (List.mem_singleton_self _)
    refine ⟨image_of_mem last, ?_⟩
    intro w other
    rcases σ.image_mem_or w with bound | ⟨unbound, same⟩
    · exact image_of_mem (List.mem_append_left _ bound)
    · rw [same]
      refine image_of_not_mem ?_
      simpa [domain, extend, other] using unbound

private theorem restrict_step {result : Substitution} (part : ∀ p ∈ result.bindings, p ∈ σ.bindings) (w : Variable) :
    (∀ p ∈ ((σ.find? w).elim result (result.insertNew w)).bindings, p ∈ σ.bindings) ∧
      ∀ v ∈ σ.domain, v = w ∨ v ∈ result.domain → v ∈ ((σ.find? w).elim result (result.insertNew w)).domain := by
  cases found : σ.find? w with
  | none =>
    refine ⟨part, ?_⟩
    intro v bound which
    refine which.resolve_left ?_
    intro same
    exact find?_eq_none_iff.mp found (same ▸ bound)
  | some t =>
    rw [Option.elim_some, insertNew]
    split
    next old => exact ⟨part, fun v _ which => which.elim (fun same => same ▸ old) id⟩
    next new =>
      constructor
      · intro p member
        rcases List.mem_append.mp member with inside | last
        · exact part p inside
        · rw [List.mem_singleton.mp last]
          exact find?_eq_some_iff.mp found
      · intro v _ which
        simpa [extend, domain, or_comm] using which

theorem restrict_fold (vars : List Variable) {result : Substitution} (part : ∀ p ∈ result.bindings, p ∈ σ.bindings) :
    (∀ p ∈ (vars.foldl (fun result v => (σ.find? v).elim result (result.insertNew v)) result).bindings,
      p ∈ σ.bindings) ∧
      ∀ v ∈ σ.domain, v ∈ vars ∨ v ∈ result.domain →
        v ∈ (vars.foldl (fun result v => (σ.find? v).elim result (result.insertNew v)) result).domain := by
  induction vars generalizing result with
  | nil => exact ⟨part, fun v _ which => which.resolve_left List.not_mem_nil⟩
  | cons w vars ih =>
    obtain ⟨part', bound'⟩ := restrict_step part w
    obtain ⟨final, bound⟩ := ih part'
    refine ⟨final, ?_⟩
    intro v inside which
    refine bound v inside ?_
    rcases which with listed | old
    · rcases List.mem_cons.mp listed with same | later
      · exact .inr (bound' v inside (.inl same))
      · exact .inl later
    · exact .inr (bound' v inside (.inr old))

theorem image_restrict {vars : List Variable} (member : v ∈ vars) : (σ.restrict vars).image v = σ.image v := by
  have start : ∀ p ∈ empty.bindings, p ∈ σ.bindings := nofun
  obtain ⟨part, bound⟩ := restrict_fold vars start
  rcases σ.image_mem_or v with inside | ⟨absent, free⟩
  · obtain ⟨t, kept⟩ := mem_domain_iff.mp (bound v (mem_domain_iff.mpr ⟨_, inside⟩) (.inl member))
    rw [image_of_mem (part _ kept)]
    exact image_of_mem kept
  · rw [free]
    refine image_of_not_mem ?_
    intro outside
    obtain ⟨t, kept⟩ := mem_domain_iff.mp outside
    exact absent (mem_domain_iff.mpr ⟨t, part _ kept⟩)

theorem mem_bindings_compose : (v, t) ∈ (σ.compose τ).bindings ↔
    (∃ u, (v, u) ∈ σ.bindings ∧ τ.apply u = t ∧ (t == .var v) = false) ∨ (v, t) ∈ τ.bindings ∧ v ∉ σ.domain := by
  simp only [compose, keep, mapRange, List.mem_append, List.mem_filter, List.mem_map]
  refine or_congr ?_ (and_congr_right fun _ => by simp)
  constructor
  · rintro ⟨⟨p, member, pair⟩, kept⟩
    obtain ⟨rfl, rfl⟩ := Prod.mk.inj pair
    exact ⟨p.2, member, rfl, by simpa [bne] using kept⟩
  · rintro ⟨u, member, value, kept⟩
    subst value
    exact ⟨⟨(v, u), member, rfl⟩, by simpa [bne] using kept⟩

theorem range_compose {P : Term → Prop} (substitutive : Term.Substitutive P) (first : ∀ t ∈ σ.range, P t)
    (second : ∀ t ∈ τ.range, P t) : ∀ t ∈ (σ.compose τ).range, P t := by
  intro t member
  obtain ⟨v, bound⟩ := exists_of_mem_range member
  rcases mem_bindings_compose.mp bound with ⟨u, inside, rfl, _⟩ | ⟨inside, _⟩
  · exact substitutive.apply second (first u (mem_range_of_mem inside))
  · exact second t (mem_range_of_mem inside)

/-- First `σ`, then `τ`, up to the binding of a variable to itself. -/
theorem shape_image_compose (σ τ : Substitution) (v : Variable) :
    ((σ.compose τ).image v).shape = (τ.apply (σ.image v)).shape := by
  rcases σ.image_mem_or v with bound | ⟨unbound, free⟩
  · cases identity : τ.apply (σ.image v) == .var v with
    | false => rw [image_of_mem (mem_bindings_compose.mpr (.inl ⟨_, bound, rfl, identity⟩))]
    | true =>
      have dropped : v ∉ (σ.compose τ).domain := by
        rw [mem_domain_iff]
        intro ⟨t, member⟩
        rcases mem_bindings_compose.mp member with ⟨u, inside, rfl, kept⟩ | ⟨_, outside⟩
        · rw [image_of_mem inside, kept] at identity
          cases identity
        · exact outside (mem_domain_iff.mpr ⟨_, bound⟩)
      rw [image_of_not_mem dropped, Term.beq_iff_shape.mp identity]
  · rw [free, apply_var]
    rcases τ.image_mem_or v with later | ⟨absent, same⟩
    · rw [image_of_mem (mem_bindings_compose.mpr (.inr ⟨later, unbound⟩))]
    · rw [same, image_of_not_mem]
      rw [mem_domain_iff]
      intro ⟨t, member⟩
      rcases mem_bindings_compose.mp member with ⟨u, inside, _⟩ | ⟨inside, _⟩
      · exact unbound (mem_domain_iff.mpr ⟨u, inside⟩)
      · exact absent (mem_domain_iff.mpr ⟨t, inside⟩)

/-- Instantiating by a composition is applying the first and instantiating by the second. -/
theorem instantiate_compose (canonical : ∀ t ∈ σ.range, t.isCanonical = true) (τ : Substitution) (t : Term) :
    (t.instantiate (σ.compose τ).image).shape = ((σ.apply t).instantiate τ.image).shape := by
  rw [instantiate_apply]
  refine Term.instantiate_congr_left ?_
  intro v _
  rw [shape_image_compose, shape_apply τ (image_hereditary Term.hereditary_isCanonical canonical v)]

def Holds (σ : Substitution) (m : Variable → Term) : Prop :=
  ∀ v, (m v).shape = ((σ.image v).instantiate m).shape

theorem holds_empty (m : Variable → Term) : empty.Holds m :=
  fun _ => rfl

/-- Under an assignment for which the bindings hold, applying them changes nothing. -/
theorem Holds.apply {m : Variable → Term} (holds : σ.Holds m) (t : Term) :
    ((σ.apply t).instantiate m).shape = (t.instantiate m).shape := by
  rw [instantiate_apply]
  exact Term.instantiate_congr_left fun v _ => (holds v).symm

/-- A solved substitution holds under itself. -/
theorem holds_image (solved : ∀ t ∈ σ.range, ∀ v ∈ t.vars, v ∉ σ.domain)
    (canonical : ∀ t ∈ σ.range, t.isCanonical = true) : σ.Holds σ.image := by
  intro v
  rcases σ.image_mem_or v with bound | ⟨_, free⟩
  · have inRange := mem_range_of_mem bound
    have unchanged : ((σ.image v).instantiate σ.image).shape = ((σ.image v).instantiate .var).shape :=
      Term.instantiate_congr_left fun w occurs => by rw [image_of_not_mem (solved _ inRange w occurs)]
    rw [unchanged, Term.shape_instantiate_var (canonical _ inRange)]
  · rw [free]
    change (Term.var v).shape = (σ.image v).shape
    rw [free]

def single (v : Variable) (t : Term) : Substitution where
  bindings := [(v, t)]

theorem image_single (v w : Variable) (t : Term) : (single v t).image w = if w = v then t else .var w := by
  split
  next same =>
    rw [same]
    exact image_of_mem (List.mem_singleton_self _)
  next other => exact image_of_not_mem (by simpa [single, domain] using other)

theorem mem_bindings_assign {w : Variable} {u : Term} (unbound : v ∉ σ.domain) :
    (w, u) ∈ (σ.assign v t unbound).bindings ↔
      (∃ r, (w, r) ∈ σ.bindings ∧ (single v (σ.apply t)).apply r = u) ∨ w = v ∧ u = σ.apply t := by
  simp only [assign, extend, mapRange, List.mem_append, List.mem_map, List.mem_singleton, Prod.mk.injEq]
  refine or_congr_left ⟨?_, ?_⟩
  · rintro ⟨p, member, pair⟩
    obtain ⟨rfl, rfl⟩ := pair
    exact ⟨p.2, member, rfl⟩
  · rintro ⟨r, member, same⟩
    exact ⟨(w, r), member, rfl, same⟩

/-- A later binding is applied to the values that variables have. -/
theorem image_assign (unbound : v ∉ σ.domain) (w : Variable) :
    (σ.assign v t unbound).image w = (single v (σ.apply t)).apply (σ.image w) := by
  rcases σ.image_mem_or w with bound | ⟨absent, free⟩
  · exact image_of_mem ((mem_bindings_assign unbound).mpr (.inl ⟨_, bound, rfl⟩))
  · rw [free, apply_var, image_single]
    split
    next same => exact image_of_mem ((mem_bindings_assign unbound).mpr (.inr ⟨same, rfl⟩))
    next other => exact image_of_not_mem (by simp [domain_assign, absent, other])

theorem range_assign {P : Term → Prop} (substitutive : Term.Substitutive P) (unbound : v ∉ σ.domain)
    (range : ∀ t ∈ σ.range, P t) (new : P t) : ∀ u ∈ (σ.assign v t unbound).range, P u := by
  have image : P (σ.apply t) := substitutive.apply range new
  intro u member
  obtain ⟨w, bound⟩ := exists_of_mem_range member
  rcases (mem_bindings_assign unbound).mp bound with ⟨r, inside, rfl⟩ | ⟨_, rfl⟩
  · refine substitutive.apply (fun t single => ?_) (range r (mem_range_of_mem inside))
    rwa [List.mem_singleton.mp single]
  · exact image

/-- Binding a variable to a variable renames it, and binds nothing when the two are one. -/
theorem singleton_var {x y : Variable} (bound : singleton x (.var y) = .ok σ) :
    (∀ v, σ.image v = .var (if v = x then y else v)) ∧ ∀ v ∈ σ.domain, v = x ∧ x ≠ y := by
  obtain ⟨_, _, new⟩ := exists_of_bind_eq_ok bound
  cases new
  by_cases same : y = x
  · have trivial : (Term.var y == .var x) = true := Term.beq_iff_shape.mpr (by rw [same])
    rw [if_pos trivial]
    refine ⟨?_, nofun⟩
    intro v
    rw [image_empty, same]
    split
    next equal => rw [equal]
    next => rfl
  · have proper : (Term.var y == .var x) = false := Term.beq_eq_false_iff_shape.mpr (by simpa [Term.shape] using same)
    rw [proper]
    have domain : (empty.insertNew x (.var y)).domain = [x] := rfl
    refine ⟨?_, fun v member => ⟨List.mem_singleton.mp (domain ▸ member), Ne.symm same⟩⟩
    intro v
    by_cases equal : v = x
    · rw [if_pos equal, equal]
      exact image_of_mem (List.mem_singleton_self _)
    · rw [if_neg equal]
      exact image_of_not_mem fun member => equal (List.mem_singleton.mp (domain ▸ member))

private theorem single_holds_iff {m : Variable → Term} :
    (single v t).Holds m ↔ (m v).shape = (t.instantiate m).shape := by
  constructor
  · intro holds
    have := holds v
    rwa [image_single, if_pos rfl] at this
  · intro same w
    rw [image_single]
    split
    next equal => rw [equal, same]
    next => rfl

/-- Binding one more variable asks for one more equation. -/
theorem holds_assign_iff {m : Variable → Term} (unbound : v ∉ σ.domain) :
    (σ.assign v t unbound).Holds m ↔ σ.Holds m ∧ (m v).shape = (t.instantiate m).shape := by
  constructor
  · intro holds
    have value : (m v).shape = ((σ.apply t).instantiate m).shape := by
      have := holds v
      rwa [image_assign, image_of_not_mem unbound, apply_var, image_single, if_pos rfl] at this
    have earlier : σ.Holds m := by
      intro w
      have later := holds w
      rwa [image_assign, (single_holds_iff.mpr value).apply] at later
    exact ⟨earlier, value.trans (earlier.apply t)⟩
  · intro ⟨earlier, value⟩ w
    have value' : (m v).shape = ((σ.apply t).instantiate m).shape := value.trans (earlier.apply t).symm
    rw [image_assign, (single_holds_iff.mpr value').apply]
    exact earlier w

end Equational.Substitution
