import Equational.Proofs.Interner
import Equational.Proofs.Repetition
import Mathlib.Data.List.Infix
import Mathlib.Data.List.Nodup

/-! Runs of requests on a new interner. The names of a kind are those asked for, each once and in the
order in which they first came up, and the number of a name is its place among them. A function symbol
is held under the number of its name from its first declaration on. -/

namespace Equational

namespace NameTable

private theorem intern_fst (table : NameTable) (name : String) : (table.intern name).1 = table.names.idxOf name := by
  rw [List.idxOf_eq_getD_idxOf?, intern, index?]
  cases table.names.idxOf? name <;> rfl

private theorem names_intern (table : NameTable) (name : String) :
    (table.intern name).2.names = if name ∈ table.names then table.names else table.names ++ [name] := by
  rw [intern, index?]
  cases found : table.names.idxOf? name with
  | none => rw [if_neg (List.idxOf?_eq_none_iff.mp found)]
  | some i =>
    obtain ⟨inside, here, _⟩ := List.idxOf?_eq_some_iff.mp found
    rw [if_pos (here ▸ List.getElem_mem inside)]

private theorem prefix_intern (table : NameTable) (name : String) : table.names <+: (table.intern name).2.names := by
  rw [names_intern]
  split
  · exact List.prefix_rfl
  · exact List.prefix_append ..

private theorem mem_names_intern (table : NameTable) (name : String) : name ∈ (table.intern name).2.names := by
  rw [names_intern]
  split
  next known => exact known
  next => simp

private theorem intern_eq_idxOf (table : NameTable) (name : String) :
    (table.intern name).1 = (table.intern name).2.names.idxOf name := by
  rw [intern_fst, names_intern]
  split
  next => rfl
  next new => simp [List.idxOf_append_of_notMem new, List.idxOf_of_notMem new]

private theorem names_intern_of_eraseDups {table : NameTable} {asked : List String} (name : String)
    (listed : table.names = asked.eraseDups) : (table.intern name).2.names = (asked ++ [name]).eraseDups := by
  rw [names_intern, List.eraseDups_concat, listed]
  simp only [List.mem_eraseDups]

private theorem getElem?_names_intern (table : NameTable) (name : String) (i : Nat) :
    (table.intern name).2.names[i]? = if i = (table.intern name).1 then some name else table.names[i]? := by
  split
  next same => rw [same, intern_eq_idxOf, List.getElem?_idxOf (mem_names_intern table name)]
  next other =>
    rw [intern_fst] at other
    rw [names_intern]
    split
    next => rfl
    next new =>
      rw [List.idxOf_of_notMem new] at other
      rw [List.getElem?_append]
      split
      next => rfl
      next outside => rw [List.getElem?_eq_none (by simp; omega), List.getElem?_eq_none (by omega)]

private theorem index?_eq_some_iff {table : NameTable} (distinct : table.names.Nodup) {name : String} {i : Nat} :
    table.index? name = some i ↔ table.names[i]? = some name := by
  rw [index?, List.idxOf?_eq_some_iff, List.getElem?_eq_some_iff]
  constructor
  · rintro ⟨inside, here, _⟩
    exact ⟨inside, here⟩
  · rintro ⟨inside, here⟩
    exact ⟨inside, here, fun j earlier same => Nat.ne_of_lt earlier
      ((distinct.getElem_inj_iff).mp (same.trans here.symm))⟩

end NameTable

namespace Interner

inductive Kind where
  | variable
  | constant
  | function
  | sort
  deriving DecidableEq

def table (interner : Interner) : Kind → NameTable
  | .variable => interner.variableTable
  | .constant => interner.constantTable
  | .function => interner.functionTable
  | .sort => interner.sortTable

def nameOf (interner : Interner) (kind : Kind) (i : Nat) : String :=
  match kind with
  | .variable => interner.variableName ⟨i⟩
  | .constant => interner.constantName ⟨i⟩
  | .function => interner.functionName ⟨i⟩
  | .sort => interner.sortName ⟨i⟩

/-- What an interner is asked for: the number of a name, a variable or a constant of a sort, or the
symbol declared under a name. -/
inductive Request where
  | number (kind : Kind) (name : String)
  | sortedVariable (name : String) (sort : SortId)
  | sortedConstant (name : String) (sort : SortId)
  | declaration (name : String) (arity : Nat) (theory : SymbolTheory) (domain range : SortId)

inductive Answer where
  | number (i : Nat)
  | var (v : Variable)
  | const (c : Constant)
  | symbol (f : FunctionSymbol)

namespace Request

def kind : Request → Kind
  | .number kind _ => kind
  | .sortedVariable .. => .variable
  | .sortedConstant .. => .constant
  | .declaration .. => .function

def name : Request → String
  | .number _ name => name
  | .sortedVariable name _ => name
  | .sortedConstant name _ => name
  | .declaration name .. => name

def declares (name : String) : Request → Bool
  | .declaration name' .. => name' == name
  | _ => false

def symbol? (id : FunctionId) : Request → Option FunctionSymbol
  | .declaration _ arity theory domain range => some { id, arity, theory, domain, range }
  | _ => none

end Request

def Answer.index : Answer → Nat
  | .number i => i
  | .var v => v.id.index
  | .const c => c.id.index
  | .symbol f => f.id.index

def answer (request : Request) (interner : Interner) : Answer × Interner :=
  match request with
  | .number .variable name =>
    let (id, interner) := interner.internVariable name
    (.number id.index, interner)
  | .number .constant name =>
    let (id, interner) := interner.internConstant name
    (.number id.index, interner)
  | .number .function name =>
    let (id, interner) := interner.internFunction name
    (.number id.index, interner)
  | .number .sort name =>
    let (id, interner) := interner.internSort name
    (.number id.index, interner)
  | .sortedVariable name sort =>
    let (v, interner) := interner.addVariable name sort
    (.var v, interner)
  | .sortedConstant name sort =>
    let (c, interner) := interner.addConstant name sort
    (.const c, interner)
  | .declaration name arity theory domain range =>
    let (f, interner) := interner.declare name arity theory domain range
    (.symbol f, interner)

def run : List Request → Interner → List (Request × Answer) × Interner
  | [], interner => ([], interner)
  | request :: requests, interner =>
    let (answer, interner) := answer request interner
    let (exchanges, interner) := run requests interner
    ((request, answer) :: exchanges, interner)

variable {interner during : Interner} {past : List Request}

section Declaration

variable (interner : Interner) (name : String) (arity : Nat) (theory : SymbolTheory) (domain range : SortId)

private theorem declare_of_held {f : FunctionSymbol}
    (held : interner.symbol? (interner.internFunction name).1 = some f) :
    interner.declare name arity theory domain range = (f, (interner.internFunction name).2) := by
  have found : (interner.internFunction name).2.symbol? (interner.internFunction name).1 = some f := held
  simp only [declare, found]

private theorem declare_of_free (free : interner.symbol? (interner.internFunction name).1 = none) :
    interner.declare name arity theory domain range =
      let id := (interner.internFunction name).1
      ({ id, arity, theory, domain, range },
        { (interner.internFunction name).2 with declared := (id, { id, arity, theory, domain, range }) ::
        interner.declared }) := by
  have missing : (interner.internFunction name).2.symbol? (interner.internFunction name).1 = none := free
  simp only [declare, missing]
  rfl

private theorem table_declare (kind : Kind) :
    (interner.declare name arity theory domain range).2.table kind = (interner.internFunction name).2.table kind := by
  cases held : interner.symbol? (interner.internFunction name).1 with
  | some f => rw [declare_of_held _ _ _ _ _ _ held]
  | none =>
    rw [declare_of_free _ _ _ _ _ _ held]
    cases kind <;> rfl

private theorem symbol?_declare (id : FunctionId) : (interner.declare name arity theory domain range).2.symbol? id =
    (interner.symbol? id).or
      (if id = (interner.internFunction name).1 then some { id, arity, theory, domain, range } else none) := by
  cases held : interner.symbol? (interner.internFunction name).1 with
  | some f =>
    rw [declare_of_held _ _ _ _ _ _ held]
    change interner.symbol? id = _
    split
    next same => rw [same, held, Option.some_or]
    next => rw [Option.or_none]
  | none =>
    rw [declare_of_free _ _ _ _ _ _ held]
    by_cases same : id = (interner.internFunction name).1
    · rw [same, held, if_pos rfl]
      simp [symbol?]
    · rw [if_neg same, Option.or_none]
      simp [symbol?, Ne.symm same]

end Declaration

private theorem answer_table (request : Request) (interner : Interner) (kind : Kind) :
    (answer request interner).2.table kind =
      if request.kind = kind then ((interner.table kind).intern request.name).2 else interner.table kind := by
  cases request with
  | number asked name => cases asked <;> cases kind <;> rfl
  | sortedVariable name sort => cases kind <;> rfl
  | sortedConstant name sort => cases kind <;> rfl
  | declaration name arity theory domain range =>
    simp only [answer, table_declare]
    cases kind <;> rfl

private theorem answer_symbol? (request : Request) (interner : Interner) (id : FunctionId) :
    (answer request interner).2.symbol? id = (interner.symbol? id).or
      (if id = ⟨((interner.table request.kind).intern request.name).1⟩ then request.symbol? id else none) := by
  cases request with
  | number asked name => cases asked <;> simp [answer, Request.symbol?] <;> rfl
  | sortedVariable name sort => simp [answer, Request.symbol?]; rfl
  | sortedConstant name sort => simp [answer, Request.symbol?]; rfl
  | declaration name arity theory domain range => exact symbol?_declare interner name arity theory domain range id

/-- The names of the kind that are asked for, with those of a new interner before them. -/
def asked (kind : Kind) (requests : List Request) : List String :=
  (empty.table kind).names ++ (requests.filter (·.kind = kind)).map Request.name

/-- The symbol that the first declaration of the name asks for. -/
def firstDeclared (name : String) (id : FunctionId) (requests : List Request) : Option FunctionSymbol :=
  requests.findSome? fun request => if request.declares name then request.symbol? id else none

/-- The interner holds what the requests so far have come to. -/
structure Follows (past : List Request) (interner : Interner) : Prop where
  names : ∀ kind, (interner.table kind).names = (asked kind past).eraseDups
  symbols : ∀ id, interner.symbol? id = interner.functionTable.names[id.index]?.bind fun name =>
    firstDeclared name id past

private theorem follows_empty : Follows [] .empty where
  names kind := by cases kind <;> decide
  symbols _ := rfl

private theorem asked_append_of_kind {request : Request} {kind : Kind} (same : request.kind = kind) :
    asked kind (past ++ [request]) = asked kind past ++ [request.name] := by
  simp [asked, same]

private theorem asked_append_of_other {request : Request} {kind : Kind} (other : request.kind ≠ kind) :
    asked kind (past ++ [request]) = asked kind past := by
  simp [asked, other]

private theorem firstDeclared_append (name : String) (id : FunctionId) (past : List Request) (request : Request) :
    firstDeclared name id (past ++ [request]) =
      (firstDeclared name id past).or (if request.declares name then request.symbol? id else none) := by
  simp [firstDeclared, List.findSome?_append]

private theorem kind_of_declares {request : Request} {name : String} (declares : request.declares name = true) :
    request.kind = .function ∧ request.name = name := by
  cases request with
  | declaration name' => exact ⟨rfl, eq_of_beq declares⟩
  | number | sortedVariable | sortedConstant => cases declares

private theorem Follows.firstDeclared_eq_none (follows : Follows past interner) {name : String}
    (unknown : name ∉ interner.functionTable.names) (id : FunctionId) : firstDeclared name id past = none := by
  refine List.findSome?_eq_none_iff.mpr fun request member => if_neg fun declares => unknown ?_
  obtain ⟨kind, rfl⟩ := kind_of_declares declares
  have listed := follows.names .function
  rw [table] at listed
  rw [listed, List.mem_eraseDups]
  exact List.mem_append_right _ (List.mem_map_of_mem (List.mem_filter.mpr ⟨member, decide_eq_true kind⟩))

private theorem Follows.nodup (follows : Follows past interner) (kind : Kind) : (interner.table kind).names.Nodup :=
  follows.names kind ▸ List.nodup_eraseDups _

private theorem Follows.answer (follows : Follows past interner) (request : Request) :
    Follows (past ++ [request]) (answer request interner).2 where
  names kind := by
    rw [answer_table]
    split
    next same => rw [asked_append_of_kind same, NameTable.names_intern_of_eraseDups _ (follows.names kind)]
    next other => rw [asked_append_of_other other, follows.names kind]
  symbols id := by
    have functions := answer_table request interner .function
    rw [table] at functions
    rw [answer_symbol?, functions, follows.symbols id]
    by_cases kind : request.kind = .function
    · rw [if_pos kind, kind]
      change Option.or _ (if id = ⟨(interner.functionTable.intern request.name).1⟩ then _ else _) =
        ((interner.functionTable.intern request.name).2.names[id.index]?).bind _
      rw [NameTable.getElem?_names_intern]
      by_cases same : id.index = (interner.functionTable.intern request.name).1
      · rw [if_pos same, if_pos (congrArg FunctionId.mk same), Option.bind_some, firstDeclared_append]
        congr 1
        · rw [same, NameTable.intern_fst]
          by_cases known : request.name ∈ interner.functionTable.names
          · rw [List.getElem?_idxOf known, Option.bind_some]
          · rw [follows.firstDeclared_eq_none known, List.getElem?_eq_none (List.idxOf_of_notMem known).ge,
              Option.bind_none]
        · cases request with
          | declaration => exact (if_pos BEq.rfl).symm
          | number | sortedVariable | sortedConstant => rfl
      · rw [if_neg same, if_neg fun equal => same (congrArg FunctionId.index equal), Option.or_none]
        refine Option.bind_congr fun name here => ?_
        have other : ¬ request.declares name = true := by
          intro declares
          obtain ⟨-, rfl⟩ := kind_of_declares declares
          obtain ⟨inside, found⟩ := List.getElem?_eq_some_iff.mp here
          rw [NameTable.intern_fst, ← found] at same
          exact same ((follows.nodup .function).idxOf_getElem _ inside).symm
        rw [firstDeclared_append, if_neg other, Option.or_none]
    · have nothing : request.symbol? id = none := by
        cases request with
        | declaration => exact absurd rfl kind
        | number | sortedVariable | sortedConstant => rfl
      rw [if_neg kind, nothing, ite_self, Option.or_none]
      simp [table, firstDeclared_append, nothing]

/-- The later interner has the names and symbols of the earlier one where they were. -/
structure Grows (before after : Interner) : Prop where
  names : ∀ kind, (before.table kind).names <+: (after.table kind).names
  symbols : ∀ id f, before.symbol? id = some f → after.symbol? id = some f

private theorem Grows.trans {before after : Interner} (first : before.Grows during) (second : during.Grows after) :
    before.Grows after where
  names kind := (first.names kind).trans (second.names kind)
  symbols id f held := second.symbols id f (first.symbols id f held)

private theorem grows_answer (request : Request) (interner : Interner) :
    interner.Grows (answer request interner).2 where
  names kind := by
    rw [answer_table]
    split
    · exact NameTable.prefix_intern ..
    · exact List.prefix_rfl
  symbols id f held := by rw [answer_symbol?, held, Option.some_or]

/-- The answer is the place of the name, and the answer to a declaration is the symbol that is held. -/
structure Stands (interner : Interner) (p : Request × Answer) : Prop where
  known : p.1.name ∈ (interner.table p.1.kind).names
  index : p.2.index = (interner.table p.1.kind).names.idxOf p.1.name
  symbol : ∀ name, p.1.declares name = true → ∃ f, p.2 = .symbol f ∧ interner.symbol? f.id = some f

private theorem Stands.grows {p : Request × Answer} (stands : interner.Stands p) (grows : interner.Grows during) :
    during.Stands p where
  known := (grows.names _).subset stands.known
  index := stands.index.trans ((grows.names _).idxOf_eq_of_mem stands.known)
  symbol name declares := by
    obtain ⟨f, same, held⟩ := stands.symbol name declares
    exact ⟨f, same, grows.symbols _ f held⟩

private theorem id_of_firstDeclared {name : String} {id : FunctionId} {f : FunctionSymbol}
    (first : firstDeclared name id past = some f) :
    f.id = id := by
  obtain ⟨request, -, declared⟩ := List.exists_of_findSome?_eq_some first
  split at declared
  next =>
    cases request with
    | declaration => rw [← Option.some.inj declared]
    | number | sortedVariable | sortedConstant => cases declared
  next => cases declared

private theorem Follows.id_eq (follows : Follows past interner) {id : FunctionId} {f : FunctionSymbol}
    (held : interner.symbol? id = some f) :
    f.id = id := by
  rw [follows.symbols] at held
  obtain ⟨name, -, first⟩ := Option.bind_eq_some_iff.mp held
  exact id_of_firstDeclared first

private theorem Follows.index_answer (follows : Follows past interner) (request : Request) :
    (Interner.answer request interner).1.index = ((interner.table request.kind).intern request.name).1 := by
  cases request with
  | number asked name => cases asked <;> rfl
  | sortedVariable name sort => rfl
  | sortedConstant name sort => rfl
  | declaration name arity theory domain range =>
    change (interner.declare name arity theory domain range).1.id.index = _
    cases held : interner.symbol? (interner.internFunction name).1 with
    | some f =>
      rw [declare_of_held _ _ _ _ _ _ held, follows.id_eq held]
      rfl
    | none =>
      rw [declare_of_free _ _ _ _ _ _ held]
      rfl

private theorem Follows.stands_answer (follows : Follows past interner) (request : Request) :
    (Interner.answer request interner).2.Stands (request, (Interner.answer request interner).1) where
  known := by
    rw [answer_table, if_pos rfl]
    exact NameTable.mem_names_intern ..
  index := by
    rw [answer_table, if_pos rfl, follows.index_answer]
    exact NameTable.intern_eq_idxOf ..
  symbol name declares := by
    cases request with
    | number | sortedVariable | sortedConstant => cases declares
    | declaration name' arity theory domain range =>
      let f := (interner.declare name' arity theory domain range).1
      refine ⟨f, rfl, ?_⟩
      change (interner.declare name' arity theory domain range).2.symbol? f.id = some f
      have numbered : f.id = (interner.internFunction name').1 := congrArg FunctionId.mk
        (follows.index_answer (.declaration name' arity theory domain range))
      rw [symbol?_declare, numbered, if_pos rfl]
      cases held : interner.symbol? (interner.internFunction name').1 with
      | some g =>
        have same : f = g := congrArg Prod.fst (declare_of_held _ _ _ _ _ _ held)
        rw [Option.some_or, same]
      | none =>
        have same : f = ⟨(interner.internFunction name').1, arity, theory, domain, range⟩ :=
          congrArg Prod.fst (declare_of_free _ _ _ _ _ _ held)
        rw [Option.none_or, same]

/-- After a run the interner holds what all requests have come to, and every answer stands. -/
theorem Follows.run (follows : Follows past interner) (requests : List Request) :
    Follows (past ++ requests) (run requests interner).2 ∧ interner.Grows (run requests interner).2 ∧
      ∀ p ∈ (run requests interner).1, (run requests interner).2.Stands p := by
  induction requests generalizing past interner with
  | nil =>
    rw [List.append_nil]
    exact ⟨follows, ⟨fun _ => List.prefix_rfl, fun _ _ held => held⟩, List.forall_mem_nil _⟩
  | cons request requests ih =>
    obtain ⟨later, grows, stand⟩ := ih (follows.answer request)
    rw [List.append_assoc] at later
    exact ⟨later, (grows_answer request interner).trans grows,
      List.forall_mem_cons.mpr ⟨(follows.stands_answer request).grows grows, stand⟩⟩

private theorem map_fst_run (requests : List Request) (interner : Interner) :
    (run requests interner).1.map Prod.fst = requests := by
  induction requests generalizing interner with
  | nil => rfl
  | cons request requests ih => exact congrArg (request :: ·) (ih _)

def only (interner : Interner) (kind : Kind) : Interner :=
  match kind with
  | .variable => { empty with variableTable := interner.variableTable }
  | .constant => { empty with constantTable := interner.constantTable }
  | .function => { empty with functionTable := interner.functionTable, declared := interner.declared }
  | .sort => { empty with sortTable := interner.sortTable }

private theorem only_answer_of_other {request : Request} {kind : Kind} (other : request.kind ≠ kind)
    (interner : Interner) :
    (answer request interner).2.only kind = interner.only kind := by
  have table := answer_table request interner kind
  rw [if_neg other] at table
  cases kind with
  | function =>
    cases request with
    | number asked name => cases asked <;> first | rfl | exact absurd rfl other
    | sortedVariable | sortedConstant => rfl
    | declaration => exact absurd rfl other
  | «variable» | constant | sort =>
    simp only [Interner.table] at table
    simp only [only, table]

private theorem answer_only (request : Request) (interner : Interner) :
    answer request (interner.only request.kind) = ((answer request interner).1,
      (answer request interner).2.only request.kind) := by
  cases request with
  | number asked name => cases asked <;> rfl
  | sortedVariable name sort => rfl
  | sortedConstant name sort => rfl
  | declaration name arity theory domain range =>
    simp only [answer, Request.kind]
    cases held : interner.symbol? (interner.internFunction name).1 with
    | some f =>
      rw [declare_of_held interner _ _ _ _ _ held, declare_of_held (interner.only .function) _ _ _ _ _ held]; rfl
    | none =>
      rw [declare_of_free interner _ _ _ _ _ held, declare_of_free (interner.only .function) _ _ _ _ _ held]; rfl

/-- Requests of the other kinds make no difference to a kind. -/
theorem run_filter (requests : List Request) (interner : Interner) (kind : Kind) :
    run (requests.filter (·.kind = kind)) (interner.only kind) =
      ((run requests interner).1.filter (·.1.kind = kind), (run requests interner).2.only kind) := by
  induction requests generalizing interner with
  | nil => rfl
  | cons request requests ih =>
    by_cases same : request.kind = kind
    · subst same
      rw [List.filter_cons_of_pos (by simp)]
      simp only [run]
      rw [answer_only, ih]
      simp
    · rw [List.filter_cons_of_neg (by simpa using same), ← only_answer_of_other same interner, ih]
      simp [run, same]

private theorem Stands.nameOf {p : Request × Answer} (stands : interner.Stands p) :
    interner.nameOf p.1.kind p.2.index = p.1.name := by
  have resolved : interner.nameOf p.1.kind p.2.index = ((interner.table p.1.kind).names[p.2.index]?).getD "?" := by
    cases p.1.kind <;> rfl
  rw [resolved, stands.index, List.getElem?_idxOf stands.known, Option.getD_some]

private theorem Stands.index_eq_iff {p q : Request × Answer} (first : interner.Stands p) (second : interner.Stands q)
    (same : p.1.kind = q.1.kind) : p.2.index = q.2.index ↔ p.1.name = q.1.name := by
  rw [first.index, second.index, ← same]
  exact List.idxOf_inj first.known

private theorem numbers_asked (kind : Kind) (requests : List Request) :
    ((asked kind requests).map (asked kind requests).eraseDups.idxOf).eraseDups = List.range
      (asked kind requests).eraseDups.length := by
  rw [List.eraseDups_map fun a first b _ same => (List.idxOf_inj (List.mem_eraseDups.mpr first)).mp same]
  refine List.ext_getElem (by simp) fun i inside _ => ?_
  rw [List.getElem_map, List.getElem_range]
  exact (List.nodup_eraseDups _).idxOf_getElem i _

private theorem Follows.numbers_empty (follows : Follows past interner) (kind : Kind) :
    (empty.table kind).names.map (interner.table kind).names.idxOf = List.range (empty.table kind).size := by
  have distinct : (empty.table kind).names.Nodup := follows_empty.nodup kind
  have first : (empty.table kind).names <+: (interner.table kind).names := by
    rw [follows.names, asked, List.eraseDups_append]
    have single : (empty.table kind).names.eraseDups = (empty.table kind).names := by cases kind <;> decide
    rw [single]
    exact List.prefix_append ..
  refine List.ext_getElem (by simp [NameTable.size]) fun i inside _ => ?_
  rw [List.getElem_map, List.getElem_range, ← first.idxOf_eq_of_mem (List.getElem_mem _)]
  exact distinct.idxOf_getElem i _

private theorem Follows.numbers_eq_range {exchanges : List (Request × Answer)}
    (follows : Follows (exchanges.map Prod.fst) interner) (stand : ∀ p ∈ exchanges, interner.Stands p) (kind : Kind) :
    (List.range (empty.table kind).size ++ (exchanges.filter (·.1.kind = kind)).map (·.2.index)).eraseDups =
      List.range (interner.table kind).size := by
  have numbers : (exchanges.filter (·.1.kind = kind)).map (·.2.index) =
      (((exchanges.map Prod.fst).filter (·.kind = kind)).map Request.name).map (interner.table kind).names.idxOf := by
    rw [List.filter_map, List.map_map, List.map_map]
    refine List.map_congr_left fun p member => ?_
    obtain ⟨exchanged, same⟩ := List.mem_filter.mp member
    have same : p.1.kind = kind := of_decide_eq_true same
    exact same ▸ (stand p exchanged).index
  rw [numbers, ← follows.numbers_empty, ← List.map_append, NameTable.size, follows.names]
  exact numbers_asked kind _

private theorem Follows.index_le {exchanges : List (Request × Answer)}
    (follows : Follows (exchanges.map Prod.fst) interner)
    {p : Request × Answer} (stands : interner.Stands p) : p.2.index ≤ exchanges.length := by
  have inside := List.idxOf_lt_length_of_mem stands.known
  rw [← stands.index, follows.names] at inside
  have few := List.length_eraseDups_le (asked p.1.kind (exchanges.map Prod.fst))
  have known : (empty.table p.1.kind).names.length ≤ 1 := by cases p.1.kind <;> decide
  have filtered := List.length_filter_le (fun request : Request => decide (request.kind = p.1.kind))
    (exchanges.map Prod.fst)
  simp only [asked, List.length_append, List.length_map] at few inside filtered
  omega

private theorem Follows.exists_sorts (follows : Follows past interner) :
    ∃ others, interner.sortTable.names = "term" :: others := by
  have listed := follows.names .sort
  rw [asked, show (empty.table .sort).names = ["term"] from rfl, List.singleton_append, List.eraseDups_cons] at listed
  exact ⟨_, listed⟩

private theorem Follows.sortName_default (follows : Follows past interner) : interner.sortName .default = "term" := by
  obtain ⟨others, listed⟩ := follows.exists_sorts
  simp [sortName, NameTable.resolve, SortId.default, listed]

private theorem Follows.index_eq_default_iff (follows : Follows past interner) {p : Request × Answer}
    (stands : interner.Stands p)
    (sort : p.1.kind = .sort) : p.2.index = SortId.default.index ↔ p.1.name = "term" := by
  obtain ⟨others, listed⟩ := follows.exists_sorts
  have here := stands.index
  have known := stands.known
  rw [sort] at here known
  have first : interner.sortTable.names.idxOf "term" = SortId.default.index := by simp [listed, SortId.default]
  rw [here, ← first]
  exact List.idxOf_inj known

private theorem firstDeclared_of_find? {requests : List Request} {request : Request} {name : String}
    (first : requests.find? (·.declares name) = some request) (id : FunctionId) :
    firstDeclared name id requests = request.symbol? id := by
  obtain ⟨declares, before, after, rfl, others⟩ := List.find?_eq_some_iff_append.mp first
  have none : before.findSome? (fun request => if request.declares name then request.symbol? id else none) = none :=
    List.findSome?_eq_none_iff.mpr fun request member => if_neg (by simpa using others request member)
  rw [firstDeclared, List.findSome?_append, none, Option.none_or, List.findSome?_cons, if_pos declares]
  cases request with
  | declaration => rfl
  | number | sortedVariable | sortedConstant => cases declares

private theorem Stands.answer_eq {p : Request × Answer} (stands : interner.Stands p) {name : String}
    (declares : p.1.declares name = true)
    {f : FunctionSymbol} (held : interner.symbol? ⟨interner.functionTable.names.idxOf name⟩ = some f) :
    p.2 = .symbol f := by
  obtain ⟨g, same, own⟩ := stands.symbol name declares
  obtain ⟨kind, rfl⟩ := kind_of_declares declares
  have index := stands.index
  rw [kind, same] at index
  have place : g.id = ⟨interner.functionTable.names.idxOf p.1.name⟩ := congrArg FunctionId.mk index
  rw [place, held] at own
  rw [same, Option.some.inj own]

private theorem Follows.symbol?_of_find? (follows : Follows past interner) {name : String} {request : Request}
    (first : past.find? (·.declares name) = some request) : name ∈ interner.functionTable.names ∧
      interner.symbol? ⟨interner.functionTable.names.idxOf name⟩ =
        request.symbol? ⟨interner.functionTable.names.idxOf name⟩ := by
  have declared := firstDeclared_of_find? first ⟨interner.functionTable.names.idxOf name⟩
  have known : name ∈ interner.functionTable.names := by
    by_contra unknown
    rw [follows.firstDeclared_eq_none unknown] at declared
    have declares := List.find?_some first
    cases request with
    | declaration => cases declared
    | number | sortedVariable | sortedConstant => cases declares
  refine ⟨known, ?_⟩
  rw [follows.symbols, List.getElem?_idxOf known, Option.bind_some, declared]

/-- Every symbol that is held is the answer to a declaration, and carries the number that it is held under. -/
theorem Follows.exists_of_symbol? {exchanges : List (Request × Answer)}
    (follows : Follows (exchanges.map Prod.fst) interner)
    (stand : ∀ p ∈ exchanges, interner.Stands p) {id : FunctionId} {f : FunctionSymbol}
    (held : interner.symbol? id = some f) :
    f.id = id ∧ ∃ p ∈ exchanges, p.2 = .symbol f := by
  refine ⟨follows.id_eq held, ?_⟩
  have declared := held
  rw [follows.symbols] at declared
  obtain ⟨name, here, first⟩ := Option.bind_eq_some_iff.mp declared
  obtain ⟨request, member, asks⟩ := List.exists_of_findSome?_eq_some first
  obtain ⟨p, exchanged, rfl⟩ := List.mem_map.mp member
  have declares : p.1.declares name = true := by
    by_contra other
    rw [if_neg other] at asks
    cases asks
  obtain ⟨inside, there⟩ := List.getElem?_eq_some_iff.mp here
  have place : interner.functionTable.names.idxOf name = id.index :=
    there ▸ (follows.nodup .function).idxOf_getElem _ inside
  refine ⟨p, exchanged, (stand p exchanged).answer_eq declares ?_⟩
  rw [place]
  exact held

/-- Whatever is asked of a new interner and whatever is asked of it later: within a kind, equal names
have equal numbers and different names different ones; the numbers count up from zero in the order in
which the names first come up; a number is resolved to its name, and names and numbers determine each
other; the requests of one kind are answered, and leave that part of the interner, as if there had been
no others; the default sort keeps its number; and a declared name has for ever the symbol of its first
declaration under the number that the symbol carries. As a number is at most the number of requests, up
to 2^32 - 1 requests need no more than 32 bits for it. -/
theorem numbering_stable (requests later : List Request) :
    let (exchanges, interner) := run requests .empty
    let afterwards := (run later interner).2
    exchanges.map Prod.fst = requests ∧
      (∀ p ∈ exchanges, ∀ q ∈ exchanges, p.1.kind = q.1.kind → (p.2.index = q.2.index ↔ p.1.name = q.1.name)) ∧
      (∀ kind,
        (List.range (empty.table kind).size ++ (exchanges.filter (·.1.kind = kind)).map (·.2.index)).eraseDups =
          List.range (interner.table kind).size) ∧
      (∀ p ∈ exchanges, interner.nameOf p.1.kind p.2.index = p.1.name ∧
        afterwards.nameOf p.1.kind p.2.index = p.1.name) ∧
      (∀ kind name i, (interner.table kind).index? name = some i ↔ (interner.table kind).names[i]? = some name) ∧
      (∀ kind, run (requests.filter (·.kind = kind)) .empty =
        (exchanges.filter (·.1.kind = kind), interner.only kind)) ∧
      (∀ p ∈ exchanges, p.1.kind = .sort → (p.2.index = SortId.default.index ↔ p.1.name = "term")) ∧
      afterwards.sortName .default = "term" ∧
      (∀ name arity theory domain range,
        requests.find? (·.declares name) = some (.declaration name arity theory domain range) →
        ∃ id, let f : FunctionSymbol := ⟨id, arity, theory, domain, range⟩
          interner.functionName id = name ∧ (∀ p ∈ exchanges, p.1.declares name = true → p.2 = .symbol f) ∧
            interner.symbol? id = some f ∧ afterwards.symbol? id = some f) ∧
      (∀ id f, interner.symbol? id = some f → f.id = id ∧ ∃ p ∈ exchanges, p.2 = .symbol f) ∧
      (∀ p ∈ exchanges, p.2.index ≤ requests.length) := by
  have exchanged := map_fst_run requests .empty
  have filtered := run_filter requests .empty
  obtain ⟨follows, -, stand⟩ := follows_empty.run requests
  rw [List.nil_append] at follows
  generalize run requests .empty = run at exchanged filtered follows stand
  obtain ⟨exchanges, interner⟩ := run
  dsimp only at exchanged filtered follows stand ⊢
  subst exchanged
  obtain ⟨followsLater, grows, -⟩ := follows.run later
  refine ⟨rfl, fun p first q second => (stand p first).index_eq_iff (stand q second), follows.numbers_eq_range stand,
    fun p member => ⟨(stand p member).nameOf, ((stand p member).grows grows).nameOf⟩,
    fun kind _ _ => NameTable.index?_eq_some_iff (follows.nodup kind), fun kind => ?_,
    fun p member => follows.index_eq_default_iff (stand p member), followsLater.sortName_default,
    fun name arity theory domain range first => ?_, fun _ _ => follows.exists_of_symbol? stand, fun p member => ?_⟩
  · rw [← filtered kind]
    cases kind <;> rfl
  · obtain ⟨known, held⟩ := follows.symbol?_of_find? first
    refine ⟨⟨interner.functionTable.names.idxOf name⟩, ?_,
      fun p member declares => (stand p member).answer_eq declares held, held, grows.symbols _ _ held⟩
    rw [functionName, NameTable.resolve, List.getElem?_idxOf known, Option.getD_some]
  · rw [List.length_map]
    exact follows.index_le (stand p member)

/-- The name of a function is numbered before it is declared, and declared a second time as something else. -/
example :
    let requests : List Request :=
      [.number .function "f", .number .variable "f", .declaration "g" 1 .free ⟨1⟩ ⟨1⟩, .number .sort "bool",
        .declaration "f" 2 .associativeCommutative .default .default, .number .sort "term",
        .declaration "f" 1 .free ⟨1⟩ ⟨1⟩]
    let f : FunctionSymbol := ⟨⟨0⟩, 2, .associativeCommutative, .default, .default⟩
    (run requests .empty).1.map Prod.snd = [.number 0, .number 0, .symbol ⟨⟨1⟩, 1, .free, ⟨1⟩, ⟨1⟩⟩, .number 1,
      .symbol f, .number 0, .symbol f] ∧
      (run requests .empty).2.symbol? ⟨0⟩ = some f := by
  cbv

end Interner

end Equational
