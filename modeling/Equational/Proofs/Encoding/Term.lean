import Equational.Encoding.Term
import Equational.Proofs.Json.Fields
import Equational.Proofs.Json.Reading

/-! Symbols, terms and equations survive being written down. What is read from their form is the tree
that was written, with the same symbols and the same lists of arguments: nothing is flattened, collapsed
or put in order on the way. -/

namespace Equational

open Json (record natural text enter)

/-- Nothing but the value itself is read from its form, and it is read exactly if its numbers are in
range and the form is not nested deeper than is allowed. The same holds for every text of the form. -/
def ReadsBack (toJson : α → Json) (decode : Nat → Json → Option α) (inRange : α → Prop) : Prop :=
  ∀ value read,
    (∀ levels, decode levels (toJson value) = some read ↔ read = value ∧ (toJson value).depth ≤ levels ∧
    inRange value) ∧
    ∀ layout, Json.read? decode (String.ofList ((toJson value).print layout)) = some read ↔
      read = value ∧ (toJson value).depth ≤ Json.textLevels ∧ inRange value

private theorem ReadsBack.of_decode {toJson : α → Json} {decode : Nat → Json → Option α} {inRange : α → Prop}
    (plain : ∀ value, (toJson value).Plain)
    (decoded : ∀ value read levels, decode levels (toJson value) = some read ↔
      read = value ∧ (toJson value).depth ≤ levels ∧ inRange value) :
    ReadsBack toJson decode inRange := by
  intro value read
  refine ⟨decoded value read, fun layout => ?_⟩
  rw [Json.read?, (plain value).parse?_print, Option.bind_some, decoded]

private theorem SymbolTheory.decode_toJson (theory : SymbolTheory) (levels : Nat) :
    decode levels theory.toJson = some theory := by
  cases theory <;> rfl

private theorem decodeSorted_encodeSorted {index levels : Nat} {sort : SortId} {read : Nat × SortId} :
    decodeSorted levels (encodeSorted index sort) = some read ↔
      read = (index, sort) ∧ 1 ≤ levels ∧ index ≤ maxIndex ∧ sort.index ≤ maxIndex := by
  cases levels with
  | zero => simp [decodeSorted, enter]
  | succ levels =>
    have fields : (encodeSorted index sort).allFields? ["id", "sort"] = some [natural index, natural sort.index] :=
      Json.allFields?_record rfl (by decide)
    simp only [decodeSorted, enter, fields, Option.bind_eq_bind, Option.bind_some, Option.bind_eq_some_iff,
      Json.natural?_natural]
    constructor
    · rintro ⟨_, ⟨rfl, first⟩, _, ⟨rfl, second⟩, ⟨⟩⟩
      exact ⟨rfl, by omega, first, second⟩
    · rintro ⟨rfl, _, first, second⟩
      exact ⟨_, ⟨rfl, first⟩, _, ⟨rfl, second⟩, rfl⟩

private theorem map_decodeSorted {index levels : Nat} {sort : SortId} (build : Nat × SortId → α) {read : α} :
    (decodeSorted levels (encodeSorted index sort)).map build = some read ↔
      read = build (index, sort) ∧ 1 ≤ levels ∧ index ≤ maxIndex ∧ sort.index ≤ maxIndex := by
  simp only [Option.map_eq_some_iff, decodeSorted_encodeSorted]
  constructor
  · rintro ⟨_, ⟨rfl, inRange⟩, rfl⟩
    exact ⟨rfl, inRange⟩
  · rintro ⟨rfl, inRange⟩
    exact ⟨_, ⟨rfl, inRange⟩, rfl⟩

namespace FunctionSymbol

structure InRange (f : FunctionSymbol) : Prop where
  id : f.id.index ≤ maxIndex
  arity : f.arity ≤ maxArity
  domain : f.domain.index ≤ maxIndex
  range : f.range.index ≤ maxIndex

private theorem plain_toJson (f : FunctionSymbol) : f.toJson.Plain := by
  refine .record _ ?_
  simp only [List.forall_mem_cons]
  exact ⟨.integer .., .integer .., .text _, .integer .., .integer .., by simp⟩

private theorem depth_toJson (f : FunctionSymbol) : f.toJson.depth = 1 :=
  rfl

private theorem decode_toJson (f read : FunctionSymbol) (levels : Nat) :
    decode levels f.toJson = some read ↔ read = f ∧ f.toJson.depth ≤ levels ∧ f.InRange := by
  rw [depth_toJson]
  cases levels with
  | zero => simp [decode, enter]
  | succ levels =>
    have fields : f.toJson.allFields? ["id", "arity", "theory", "domain", "range"] =
        some [natural f.id.index, natural f.arity, f.theory.toJson, natural f.domain.index, natural f.range.index] :=
      Json.allFields?_record rfl (by decide)
    simp only [decode, enter, fields, Option.bind_eq_bind, Option.bind_some, Option.bind_eq_some_iff,
      Json.natural?_natural, SymbolTheory.decode_toJson]
    constructor
    · rintro ⟨_, ⟨rfl, id⟩, _, ⟨rfl, arity⟩, _, ⟨rfl, domain⟩, _, ⟨rfl, range⟩, ⟨⟩⟩
      exact ⟨rfl, by omega, id, arity, domain, range⟩
    · rintro ⟨rfl, _, id, arity, domain, range⟩
      exact ⟨_, ⟨rfl, id⟩, _, ⟨rfl, arity⟩, _, ⟨rfl, domain⟩, _, ⟨rfl, range⟩, rfl⟩

end FunctionSymbol

namespace Term

/-- Every number in the term is in range. Its shape is free: a node may hold any number of any arguments. -/
inductive InRange : Term → Prop where
  | var {v : Variable} (id : v.id.index ≤ maxIndex) (sort : v.sort.index ≤ maxIndex) : InRange (.var v)
  | const {c : Constant} (id : c.id.index ≤ maxIndex) (sort : c.sort.index ≤ maxIndex) : InRange (.const c)
  | node {f : FunctionSymbol} {args : List Term} (symbol : f.InRange) (each : ∀ arg ∈ args, InRange arg) :
      InRange (.node f args)

private theorem inRange_var {v : Variable} : (var v).InRange ↔ v.id.index ≤ maxIndex ∧ v.sort.index ≤ maxIndex := by
  constructor
  · rintro ⟨⟩
    exact ⟨‹_›, ‹_›⟩
  · exact fun ⟨id, sort⟩ => .var id sort

private theorem inRange_const {c : Constant} :
    (const c).InRange ↔ c.id.index ≤ maxIndex ∧ c.sort.index ≤ maxIndex := by
  constructor
  · rintro ⟨⟩
    exact ⟨‹_›, ‹_›⟩
  · exact fun ⟨id, sort⟩ => .const id sort

private theorem inRange_node {f : FunctionSymbol} {args : List Term} :
    (node f args).InRange ↔ f.InRange ∧ ∀ arg ∈ args, arg.InRange := by
  constructor
  · rintro ⟨⟩
    exact ⟨‹_›, ‹_›⟩
  · exact fun ⟨symbol, each⟩ => .node symbol each

private theorem toJsonList_eq_map (args : List Term) : toJsonList args = args.map toJson := by
  induction args with
  | nil => rfl
  | cons arg args ih => rw [toJsonList, ih, List.map_cons]

private theorem plain_sorted (index : Nat) (sort : SortId) : (encodeSorted index sort).Plain := by
  refine .record _ ?_
  simp only [List.forall_mem_cons]
  exact ⟨.integer .., .integer .., by simp⟩

private theorem plain_toJson (t : Term) : t.toJson.Plain := by
  induction t with
  | var v => exact .record _ (List.forall_mem_singleton.mpr (plain_sorted ..))
  | const c => exact .record _ (List.forall_mem_singleton.mpr (plain_sorted ..))
  | node f args each =>
    refine .record _ (List.forall_mem_singleton.mpr (.array _ ?_))
    refine List.forall_mem_cons.mpr ⟨f.plain_toJson, List.forall_mem_singleton.mpr (.array _ ?_)⟩
    rw [toJsonList_eq_map]
    exact List.forall_mem_map.mpr each

private theorem depth_node (f : FunctionSymbol) (args : List Term) :
    (node f args).toJson.depth = Json.depthElements (toJsonList args) + 3 := by
  simp [toJson, record, Json.depth, Json.depthMembers, Json.depthElements, FunctionSymbol.depth_toJson]

private theorem decodeList_toJsonList {args : List Term} {levels : Nat}
    (each : ∀ arg ∈ args, ∀ read, decode levels arg.toJson = some read ↔ read = arg ∧ arg.toJson.depth ≤ levels ∧
      arg.InRange)
    (read : List Term) :
    decodeList levels (toJsonList args) = some read ↔
      read = args ∧ Json.depthElements (toJsonList args) ≤ levels ∧ ∀ arg ∈ args, arg.InRange := by
  induction args generalizing read with
  | nil => simp [decodeList, toJsonList, Json.depthElements, eq_comm]
  | cons arg args ih =>
    obtain ⟨first, others⟩ := List.forall_mem_cons.mp each
    simp only [toJsonList, decodeList, Option.bind_eq_bind, Option.bind_eq_some_iff, first, ih others,
      Json.depthElements, List.forall_mem_cons, Nat.max_le]
    constructor
    · rintro ⟨_, ⟨rfl, shallow, inRange⟩, _, ⟨rfl, shallows, inRanges⟩, ⟨⟩⟩
      exact ⟨rfl, ⟨shallow, shallows⟩, inRange, inRanges⟩
    · rintro ⟨rfl, ⟨shallow, shallows⟩, inRange, inRanges⟩
      exact ⟨_, ⟨rfl, shallow, inRange⟩, _, ⟨rfl, shallows, inRanges⟩, rfl⟩

private theorem decode_toJson (t read : Term) (levels : Nat) :
    decode levels t.toJson = some read ↔ read = t ∧ t.toJson.depth ≤ levels ∧ t.InRange := by
  induction t generalizing read levels with
  | var v =>
    cases levels with
    | zero => simp [toJson, record, decode, Json.depth]
    | succ levels =>
      have content : decode (levels + 1) (var v).toJson =
        (decodeSorted levels (encodeSorted v.id.index v.sort)).map fun content => .var ⟨⟨content.1⟩, content.2⟩ := rfl
      have depth : (var v).toJson.depth = 1 + 1 := rfl
      rw [content, map_decodeSorted, depth, Nat.add_le_add_iff_right, inRange_var]
  | const c =>
    cases levels with
    | zero => simp [toJson, record, decode, Json.depth]
    | succ levels =>
      have content : decode (levels + 1) (const c).toJson =
        (decodeSorted levels (encodeSorted c.id.index c.sort)).map fun content =>
        .const ⟨⟨content.1⟩, content.2⟩ := rfl
      have depth : (const c).toJson.depth = 1 + 1 := rfl
      rw [content, map_decodeSorted, depth, Nat.add_le_add_iff_right, inRange_const]
  | node f args each =>
    rw [depth_node, inRange_node]
    -- A node opens three containers around its arguments, so fewer levels never reach them.
    by_cases few : levels < 3
    · have refused : decode levels (node f args).toJson = none := by interval_cases levels <;> rfl
      simp only [refused, reduceCtorEq, false_iff]
      rintro ⟨_, enough, _⟩
      omega
    · obtain ⟨levels, rfl⟩ := Nat.exists_eq_add_of_le' (Nat.not_lt.mp few)
      have content : decode (levels + 3) (node f args).toJson =
        (FunctionSymbol.decode (levels + 1) f.toJson).bind fun f =>
          (decodeList levels (toJsonList args)).bind fun args => some (.node f args) := rfl
      have arguments := decodeList_toJsonList fun arg among read => each arg among read levels
      simp only [content, Option.bind_eq_some_iff, FunctionSymbol.decode_toJson, arguments,
        FunctionSymbol.depth_toJson]
      constructor
      · rintro ⟨_, ⟨rfl, _, symbol⟩, _, ⟨rfl, shallow, inRange⟩, ⟨⟩⟩
        exact ⟨rfl, by omega, symbol, inRange⟩
      · rintro ⟨rfl, shallow, symbol, inRange⟩
        exact ⟨_, ⟨rfl, by omega, symbol⟩, _, ⟨rfl, by omega, inRange⟩, rfl⟩

end Term

namespace Equation

structure InRange (e : Equation) : Prop where
  lhs : e.lhs.InRange
  rhs : e.rhs.InRange

private theorem plain_toJson (e : Equation) : e.toJson.Plain := by
  refine .record _ ?_
  simp only [List.forall_mem_cons]
  exact ⟨e.lhs.plain_toJson, e.rhs.plain_toJson, by simp⟩

private theorem depth_toJson (e : Equation) : e.toJson.depth = max e.lhs.toJson.depth e.rhs.toJson.depth + 1 := by
  simp [toJson, record, Json.depth, Json.depthMembers]

private theorem decode_toJson (e read : Equation) (levels : Nat) :
    decode levels e.toJson = some read ↔ read = e ∧ e.toJson.depth ≤ levels ∧ e.InRange := by
  rw [depth_toJson]
  cases levels with
  | zero => simp [decode, enter]
  | succ levels =>
    have fields : e.toJson.allFields? ["lhs", "rhs"] = some [e.lhs.toJson, e.rhs.toJson] :=
      Json.allFields?_record rfl (by decide)
    simp only [decode, enter, fields, Option.bind_eq_bind, Option.bind_some, Option.bind_eq_some_iff,
      Term.decode_toJson, Nat.add_le_add_iff_right, Nat.max_le]
    constructor
    · rintro ⟨_, ⟨rfl, shallow, lhs⟩, _, ⟨rfl, shallow', rhs⟩, ⟨⟩⟩
      exact ⟨rfl, ⟨shallow, shallow'⟩, lhs, rhs⟩
    · rintro ⟨rfl, ⟨shallow, shallow'⟩, lhs, rhs⟩
      exact ⟨_, ⟨rfl, shallow, lhs⟩, _, ⟨rfl, shallow', rhs⟩, rfl⟩

end Equation

namespace ExpAC.Signature

structure InRange (signature : Signature) : Prop where
  exp : signature.exp.InRange
  g : signature.g.InRange
  f : signature.f.InRange

private theorem plain_toJson (signature : Signature) : signature.toJson.Plain := by
  refine .record _ ?_
  simp only [List.forall_mem_cons]
  exact ⟨signature.exp.plain_toJson, signature.g.plain_toJson, signature.f.plain_toJson, by simp⟩

private theorem decode_toJson (signature read : Signature) (levels : Nat) :
    decode levels signature.toJson = some read ↔ read = signature ∧ signature.toJson.depth ≤ levels ∧
    signature.InRange := by
  have depth : signature.toJson.depth = 1 + 1 := rfl
  rw [depth]
  cases levels with
  | zero => simp [decode, enter]
  | succ levels =>
    have fields : signature.toJson.allFields? ["exp", "g", "f"] =
        some [signature.exp.toJson, signature.g.toJson, signature.f.toJson] :=
      Json.allFields?_record rfl (by decide)
    simp only [decode, enter, fields, Option.bind_eq_bind, Option.bind_some, Option.bind_eq_some_iff,
      FunctionSymbol.decode_toJson, FunctionSymbol.depth_toJson, Nat.add_le_add_iff_right]
    constructor
    · rintro ⟨_, ⟨rfl, shallow, exp⟩, _, ⟨rfl, _, g⟩, _, ⟨rfl, _, f⟩, ⟨⟩⟩
      exact ⟨rfl, shallow, exp, g, f⟩
    · rintro ⟨rfl, shallow, exp, g, f⟩
      exact ⟨_, ⟨rfl, shallow, exp⟩, _, ⟨rfl, shallow, g⟩, _, ⟨rfl, shallow, f⟩, rfl⟩

end ExpAC.Signature

/-- Terms, equations, function symbols and signatures are read back. A term of any depth is read from
its form, since the form itself says how deep reading may go. -/
theorem forms_read_back :
    (∀ t read : Term, Term.ofJson? t.toJson = some read ↔ read = t ∧ t.InRange) ∧
      ReadsBack Term.toJson Term.decode Term.InRange ∧
      ReadsBack Equation.toJson Equation.decode Equation.InRange ∧
      ReadsBack FunctionSymbol.toJson FunctionSymbol.decode FunctionSymbol.InRange ∧
      ReadsBack ExpAC.Signature.toJson ExpAC.Signature.decode ExpAC.Signature.InRange := by
  refine ⟨fun t read => ?_, .of_decode Term.plain_toJson Term.decode_toJson,
    .of_decode Equation.plain_toJson Equation.decode_toJson,
    .of_decode FunctionSymbol.plain_toJson FunctionSymbol.decode_toJson,
      .of_decode ExpAC.Signature.plain_toJson ExpAC.Signature.decode_toJson⟩
  rw [Term.ofJson?, Term.decode_toJson]
  simp

/-- A sum within a sum, and one without arguments, are read back as they stand. -/
example :
    let plus : FunctionSymbol := ⟨⟨maxIndex⟩, 2, .associativeCommutative, ⟨0⟩, ⟨1⟩⟩
    let sum : Term := .node plus [.node plus [.const ⟨⟨3⟩, ⟨0⟩⟩, .var ⟨⟨2⟩, ⟨5⟩⟩], .node plus [], .var ⟨⟨0⟩, ⟨0⟩⟩]
    Term.ofJson? sum.toJson = some sum :=
  rfl

end Equational
