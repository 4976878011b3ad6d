import Equational.Proofs.Substitution
import Equational.Proofs.Term.Bag

/-! What the application of a substitution keeps. Equal terms under equal substitutions stay equal,
in whatever shape the terms were built. Sorts are checked when terms are built and when bindings are
added, and never again: they survive exactly where no pair under an idempotent symbol can collapse into
another sort. -/

namespace Equational.Substitution

variable {σ θ : Substitution} {s t : Term}

private theorem isEmpty_iff : σ.isEmpty = true ↔ ∀ v, v ∉ σ.domain := by
  rw [← List.eq_nil_iff_forall_not_mem, domain, List.map_eq_nil_iff]
  exact List.isEmpty_iff

private theorem shape_apply_congr_left (domains : ∀ v, v ∈ σ.domain ↔ v ∈ θ.domain)
    (images : ∀ v ∈ σ.domain, (σ.image v).shape = (θ.image v).shape) (t : Term) :
    (σ.apply t).shape = (θ.apply t).shape := by
  have both : σ.isEmpty = θ.isEmpty := by
    rw [Bool.eq_iff_iff, isEmpty_iff, isEmpty_iff]
    exact forall_congr' fun v => not_congr (domains v)
  simp only [apply, ← both]
  split
  · rfl
  · rw [rebuild_eq_instantiate, rebuild_eq_instantiate]
    refine Term.instantiate_congr_left fun v _ => ?_
    by_cases bound : v ∈ σ.domain
    · exact images v bound
    · rw [image_of_not_mem bound, image_of_not_mem fun member => bound ((domains v).mpr member)]

/-- Equal terms under substitutions that bind the same variables to equal terms are equal, however the
terms are nested, ordered or left uncollapsed. -/
theorem apply_beq_apply (domains : ∀ v, v ∈ σ.domain ↔ v ∈ θ.domain)
    (images : ∀ v ∈ σ.domain, (σ.image v == θ.image v) = true) (same : (s == t) = true) :
    (σ.apply s == θ.apply t) = true := by
  rw [Term.beq_iff_shape] at same ⊢
  calc (σ.apply s).shape
    _ = (σ.apply t).shape := shape_apply_congr same σ
    _ = (θ.apply t).shape := shape_apply_congr_left domains (fun v bound => Term.beq_iff_shape.mp (images v bound)) t

/-- Sums nested to the left and to the right, around a pair that collapses only once `x` and `y` have their
values; these are sums themselves, which the two substitutions bind in different order. -/
theorem apply_beq_apply_nestedSums :
    let x : Variable := ⟨⟨0⟩, .default⟩
    let y : Variable := ⟨⟨1⟩, .default⟩
    let a : Term := .const ⟨⟨0⟩, .default⟩
    let b : Term := .const ⟨⟨1⟩, .default⟩
    let f : FunctionSymbol := ⟨⟨0⟩, 2, .associativeCommutative, .default, .default⟩
    let i : FunctionSymbol := ⟨⟨1⟩, 2, .idempotent, .default, .default⟩
    let s : Term := .node f [.node f [.node i [.var x, .var y], a], .var y]
    let t : Term := .node f [.var y, .node f [a, .node i [.var x, .var y]]]
    let σ : Substitution := ⟨[(x, .node f [a, b]), (y, .node f [b, a])], by decide⟩
    let θ : Substitution := ⟨[(y, .node f [.node f [b], a]), (x, .node f [.node f [a], b])], by decide⟩
    (∀ v, v ∈ σ.domain ↔ v ∈ θ.domain) ∧ (∀ v ∈ σ.domain, (σ.image v == θ.image v) = true) ∧ (s == t) = true ∧
      (σ.apply s == .node f [a, b, a, b, a]) = true ∧ (σ.apply s == θ.apply t) = true := by
  intro x y a b f i s t σ θ
  have domains (v : Variable) : v ∈ σ.domain ↔ v ∈ θ.domain := by
    simp [σ, θ, domain, or_comm]
  have images : ∀ v ∈ σ.domain, (σ.image v == θ.image v) = true := by decide
  have same : (s == t) = true := by decide
  exact ⟨domains, images, same, by decide, apply_beq_apply domains images same⟩

end Equational.Substitution

namespace Equational.Term

variable {f : FunctionSymbol} {args : List Term} {t : Term}

theorem checked_eq_ok_iff :
    checked f args = .ok t ↔ args.length = f.arity ∧ (∀ arg ∈ args, arg.sort = f.domain) ∧ app f args = t := by
  simp only [checked, bne_iff_ne, ne_eq]
  split
  next other => simp [other]
  next many =>
    rw [not_not] at many
    split
    next arg found =>
      obtain ⟨wrong, member⟩ := And.intro (List.find?_some found) (List.mem_of_find?_eq_some found)
      simp only [reduceCtorEq, false_iff, not_and]
      intro _ sorted
      simp [sorted arg member] at wrong
    next sorted =>
      have each : ∀ arg ∈ args, arg.sort = f.domain := by simpa using sorted
      rw [Except.ok.injEq]
      exact ⟨fun built => ⟨many, each, built⟩, fun held => held.2.2⟩

/-- Built from variables and constants with the checked constructor. -/
inductive Checked : Term → Prop
  | var (v : Variable) : Checked (.var v)
  | const (c : Constant) : Checked (.const c)
  | app {f : FunctionSymbol} {args : List Term} {t : Term} (each : ∀ arg ∈ args, Checked arg)
      (built : checked f args = .ok t) : Checked t

/-- Whether the arguments have the domain sort and, unless nested applications were spliced in, are as many as
the arity says. -/
def fits (f : FunctionSymbol) (args : List Term) : Bool :=
  args.all (·.sort == f.domain) && (f.theory.isAssociative || args.length == f.arity)

private theorem fits_iff : fits f args = true ↔
    (∀ arg ∈ args, arg.sort = f.domain) ∧ (f.theory.isAssociative = false → args.length = f.arity) := by
  simp [fits, Classical.or_iff_not_imp_left]

private theorem fits_spliced (associative : f.theory.isAssociative = true)
    (each : ∀ arg ∈ args, arg.everyNode fits = true)
    (root : fits f args = true) : fits f (spliced f args) = true := by
  refine fits_iff.mpr ⟨fun arg member => ?_, by simp [associative]⟩
  rcases mem_spliced member with ⟨kept, _⟩ | ⟨inner, found, inside⟩
  · exact (fits_iff.mp root).1 arg kept
  · exact (fits_iff.mp (everyNode_node.mp (each _ found)).1).1 arg inside

/-- A pair under the symbol, should it collapse, has the sort of the application. -/
def CollapsesWithinSort (f : FunctionSymbol) : Prop :=
  f.theory = .idempotent → f.arity = 2 → f.domain = f.range

private theorem sort_app_of_fits (within : CollapsesWithinSort f) (root : fits f args = true) :
    (app f args).sort = f.range := by
  by_cases idempotent : f.theory = .idempotent
  · obtain ⟨sorts, lengths⟩ := fits_iff.mp root
    have many := lengths (by simp [idempotent, SymbolTheory.isAssociative])
    by_cases pair : args.length = 2
    · obtain ⟨s, t, rfl⟩ := List.length_eq_two.mp pair
      rw [app_pair idempotent]
      split
      · rw [sorts s (by simp), within idempotent (many ▸ pair)]
      · rfl
    · rw [app_of_length_ne idempotent pair, sort]
  · exact sort_app idempotent args

private theorem Checked.fits (built : t.Checked) : t.everyNode fits = true := by
  induction built with
  | var v => exact everyNode_var v
  | const c => exact everyNode_const c
  | app each built ih =>
    obtain ⟨many, sorts, rfl⟩ := checked_eq_ok_iff.mp built
    exact everyNode_app fits_spliced (fits_iff.mpr ⟨sorts, fun _ => many⟩) ih

private theorem isWellSorted_of_fits (fit : t.everyNode fits = true) : t.isWellSorted = true := by
  induction t with
  | var v => exact everyNode_var v
  | const c => exact everyNode_const c
  | node f args ih =>
    obtain ⟨root, each⟩ := everyNode_node.mp fit
    exact isWellSorted_node.mpr ⟨(fits_iff.mp root).1, fun arg member => ih arg member (each arg member)⟩

private theorem instantiate_of_fits {m : Variable → Term}
    (images : ∀ v, (m v).sort = v.sort ∧ (m v).everyNode fits = true)
    (within : t.Over CollapsesWithinSort) (fit : t.everyNode fits = true) :
    (t.instantiate m).sort = t.sort ∧ (t.instantiate m).everyNode fits = true := by
  induction t with
  | var v => exact images v
  | const c => exact ⟨rfl, everyNode_const c⟩
  | node f args ih =>
    obtain ⟨collapses, inside⟩ := over_node.mp within
    obtain ⟨root, each⟩ := everyNode_node.mp fit
    obtain ⟨sorts, lengths⟩ := fits_iff.mp root
    have kept : ∀ arg ∈ args, (arg.instantiate m).sort = arg.sort ∧ (arg.instantiate m).everyNode fits = true :=
      fun arg member => ih arg member (inside arg member) (each arg member)
    have root' : fits f (args.map (instantiate m)) = true := by
      refine fits_iff.mpr ⟨?_, by simpa using lengths⟩
      intro image member
      obtain ⟨arg, present, rfl⟩ := List.mem_map.mp member
      rw [(kept arg present).1, sorts arg present]
    rw [instantiate_node]
    refine ⟨sort_app_of_fits collapses root', everyNode_app fits_spliced root' ?_⟩
    intro image member
    obtain ⟨arg, present, rfl⟩ := List.mem_map.mp member
    exact (kept arg present).2

end Equational.Term

namespace Equational.Substitution

variable {σ σ' : Substitution} {v : Variable} {t : Term}

/-- Every binding was accepted at some time by `add`, and binds a checked term. -/
def Checked (σ : Substitution) : Prop :=
  ∀ p ∈ σ.bindings, p.2.Checked ∧ ∃ before after : Substitution, before.add p.1 p.2 = .ok after

private theorem checked_empty : empty.Checked :=
  nofun

private theorem Checked.add (earlier : σ.Checked) (built : t.Checked) (added : σ.add v t = .ok σ') : σ'.Checked := by
  intro ⟨w, u⟩ member
  rcases mem_bindings_of_add added member with old | ⟨rfl, rfl⟩
  · exact earlier _ old
  · exact ⟨built, σ, σ', added⟩

private theorem sort_of_add (added : σ.add v t = .ok σ') : t.sort = v.sort := by
  obtain ⟨_, sorted, _⟩ := exists_of_bind_eq_ok added
  simp only [checkSort] at sorted
  split at sorted
  next same => exact (beq_iff_eq.mp same).symm
  next => cases sorted

private theorem Checked.image (checked : σ.Checked) (v : Variable) :
    (σ.image v).sort = v.sort ∧ (σ.image v).everyNode Term.fits = true := by
  rcases σ.image_mem_or v with bound | ⟨_, free⟩
  · obtain ⟨built, before, after, added⟩ := checked _ bound
    exact ⟨sort_of_add added, built.fits⟩
  · rw [free]
    exact ⟨rfl, Term.everyNode_var v⟩

private theorem Checked.apply (checked : σ.Checked) (built : t.Checked) (within : t.Over Term.CollapsesWithinSort) :
    (σ.apply t).sort = t.sort ∧ (σ.apply t).isWellSorted = true := by
  rcases σ.apply_eq_or t with same | ⟨_, same⟩
  · obtain ⟨sort, fit⟩ := Term.instantiate_of_fits checked.image within built.fits
    rw [same]
    exact ⟨sort, Term.isWellSorted_of_fits fit⟩
  · rw [same]
    exact ⟨rfl, Term.isWellSorted_of_fits built.fits⟩

private theorem exists_collapse {g : FunctionSymbol} (idempotent : g.theory = .idempotent) (binary : g.arity = 2) :
    ∃ (σ : Substitution) (t : Term), t.Checked ∧ t.Over (· = g) ∧ σ.Checked ∧ t.sort = g.range ∧
    (σ.apply t).sort = g.domain := by
  let x : Variable := ⟨⟨0⟩, g.domain⟩
  let y : Variable := ⟨⟨1⟩, g.domain⟩
  let c : Term := .const ⟨⟨0⟩, g.domain⟩
  have apart : y ≠ x := by simp [x, y]
  obtain ⟨σ₁, first, atX, others⟩ := exists_add (σ := empty) (v := x) (t := c) List.not_mem_nil rfl
  have free : y ∉ σ₁.domain := by
    intro bound
    obtain ⟨u, member⟩ := mem_domain_iff.mp bound
    rcases mem_bindings_of_add first member with old | ⟨same, _⟩
    · cases old
    · exact apart same
  obtain ⟨σ, second, atY, kept⟩ := exists_add (t := c) free rfl
  have different : (Term.var x == .var y) = false := by
    rw [Term.beq_eq_false_iff_shape]
    simp [Term.shape, x, y]
  have pair : Term.app g [.var x, .var y] = .node g [.var x, .var y] := by simp [Term.app_pair idempotent, different]
  have built : Term.checked g [.var x, .var y] = .ok (.node g [.var x, .var y]) :=
    Term.checked_eq_ok_iff.mpr ⟨by simp [binary], by simp [Term.sort, x, y], pair⟩
  refine ⟨σ, .node g [.var x, .var y], ?_, ?_, ?_, rfl, ?_⟩
  · exact .app (by simp [Term.Checked.var]) built
  · simp [Term.over_node, (Term.hereditary_over _).var]
  · exact (checked_empty.add (.const _) first).add (.const _) second
  · have collapsed : (Term.node g [.var x, .var y]).instantiate σ.image = c := by
      rw [Term.instantiate_node, List.map_cons, List.map_cons, List.map_nil, Term.instantiate, Term.instantiate, atY,
        kept x apart.symm, atX, Term.app_pair idempotent, if_pos BEq.rfl]
    rcases σ.apply_eq_or (.node g [.var x, .var y]) with rebuilt | ⟨none, _⟩
    · rw [rebuilt, collapsed]
      rfl
    · rw [none] at atY
      exact absurd atY (by simp [c])

/-- Checked substitutions keep the sorts of the terms over the given symbols, and of all their subterms,
exactly if no pair under one of the symbols can collapse into another sort. -/
theorem sorts_kept_iff {known : FunctionSymbol → Prop} :
    (∀ (σ : Substitution) (t : Term), t.Checked → t.Over known → σ.Checked →
        (σ.apply t).sort = t.sort ∧ (σ.apply t).isWellSorted = true) ↔
      ∀ g, known g → g.theory = .idempotent → g.arity = 2 → g.domain = g.range := by
  constructor
  · intro kept g inUse idempotent binary
    obtain ⟨σ, t, built, spelled, checked, before, after⟩ := exists_collapse idempotent binary
    have within : t.Over known := fun g' occurs => spelled g' occurs ▸ inUse
    rw [← after, (kept σ t built within checked).1, before]
  · intro within σ t built spelled checked
    exact checked.apply built fun g occurs => within g (spelled g occurs)

/-- The pair of `x` and `y` collapses into `a`, whose sort is another, and then `h` is applied to a term of the
wrong sort. Both were checked, as were the two bindings. -/
theorem sorts_lost_in_collapse :
    let pairs : SortId := ⟨1⟩
    let x : Variable := ⟨⟨0⟩, .default⟩
    let y : Variable := ⟨⟨1⟩, .default⟩
    let a : Term := .const ⟨⟨0⟩, .default⟩
    let i : FunctionSymbol := ⟨⟨0⟩, 2, .idempotent, .default, pairs⟩
    let h : FunctionSymbol := ⟨⟨1⟩, 1, .free, pairs, pairs⟩
    let pair : Term := .node i [.var x, .var y]
    let σ : Substitution := ⟨[(x, a), (y, a)], by decide⟩
    pair.Checked ∧ (Term.node h [pair]).Checked ∧ σ.Checked ∧ (σ.apply pair).sort ≠ pair.sort ∧
      (σ.apply (.node h [pair])).isWellSorted = false := by
  intro pairs x y a i h pair σ
  have built : pair.Checked := .app (by simp [Term.Checked.var]) (rfl : Term.checked i [.var x, .var y] = .ok pair)
  have above : (Term.node h [pair]).Checked :=
    .app (by simp [built]) (rfl : Term.checked h [pair] = .ok (.node h [pair]))
  have bindings : σ.Checked :=
    have first : empty.add x a = .ok ⟨[(x, a)], by decide⟩ := rfl
    have second : Substitution.add ⟨[(x, a)], by decide⟩ y a = .ok σ := rfl
    (checked_empty.add (.const _) first).add (.const _) second
  exact ⟨built, above, bindings, by decide, by decide⟩

/-- A sum that absorbs the sum bound to `x`, above a pair that collapses within its sort. -/
theorem sorts_kept_iff_absorbedSum :
    let x : Variable := ⟨⟨0⟩, .default⟩
    let y : Variable := ⟨⟨1⟩, .default⟩
    let a : Term := .const ⟨⟨0⟩, .default⟩
    let f : FunctionSymbol := ⟨⟨0⟩, 2, .associativeCommutative, .default, .default⟩
    let i : FunctionSymbol := ⟨⟨1⟩, 2, .idempotent, .default, .default⟩
    let g : FunctionSymbol := ⟨⟨2⟩, 1, .free, .default, ⟨1⟩⟩
    let t : Term := .node g [.node f [.var x, .node i [.var x, .var y]]]
    let σ : Substitution := ⟨[(x, .node f [a, a]), (y, .node f [a, a])], by decide⟩
    (∀ k ∈ [f, i, g], k.theory = .idempotent → k.arity = 2 → k.domain = k.range) ∧ t.Checked ∧
      t.Over (· ∈ [f, i, g]) ∧ σ.Checked ∧
      (σ.apply t == .node g [.node f [a, a, a, a]]) = true ∧ (σ.apply t).sort = t.sort ∧
        (σ.apply t).isWellSorted = true := by
  intro x y a f i g t σ
  have within : ∀ k ∈ [f, i, g], k.theory = .idempotent → k.arity = 2 → k.domain = k.range := by decide
  have pair : (Term.node i [.var x, .var y]).Checked :=
    .app (by simp [Term.Checked.var]) (rfl : Term.checked i [.var x, .var y] = .ok (.node i [.var x, .var y]))
  let inner : Term := .node f [.var x, .node i [.var x, .var y]]
  have sum : inner.Checked :=
    .app (by simp [Term.Checked.var, pair]) (rfl : Term.checked f [.var x, .node i [.var x, .var y]] = .ok inner)
  have built : t.Checked := .app (by simp [sum]) (rfl : Term.checked g [inner] = .ok t)
  have spelled : ∀ k ∈ t.symbols, k ∈ [f, i, g] := by decide
  have value : (Term.node f [a, a]).Checked :=
    .app (by simp [Term.Checked.const, a]) (rfl : Term.checked f [a, a] = .ok (.node f [a, a]))
  have bindings : σ.Checked :=
    have first : empty.add x (.node f [a, a]) = .ok ⟨[(x, .node f [a, a])], by decide⟩ := rfl
    have second : Substitution.add ⟨[(x, .node f [a, a])], by decide⟩ y (.node f [a, a]) = .ok σ := rfl
    (checked_empty.add value first).add value second
  exact ⟨within, built, spelled, bindings, by decide, sorts_kept_iff.mpr within σ t built spelled bindings⟩

end Equational.Substitution
