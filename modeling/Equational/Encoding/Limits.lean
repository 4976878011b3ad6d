import Equational.Json.Fields
import Equational.Json.Printer
import Equational.Json.Reader
import Equational.Limits

/-! Limits as configuration text. Fields that are not given have their defaults. -/

namespace Equational

namespace Limits

def fieldNames : List String :=
  ["rewrite_bound", "ac_max_basis", "ac_max_frontier", "ac_parallel", "eac_max_steps", "eac_max_equations",
    "fresh_prefix"]

def maxLimit : Nat := UInt64.size - 1

def toJson (limits : Limits) : Json :=
  .record [
    ("rewrite_bound", limits.rewriteBound.elim .null Json.natural),
    ("ac_max_basis", .natural limits.acMaxBasis),
    ("ac_max_frontier", .natural limits.acMaxFrontier),
    ("ac_parallel", .bool limits.acParallel),
    ("eac_max_steps", .natural limits.expMaxSteps),
    ("eac_max_equations", .natural limits.expMaxEquations),
    ("fresh_prefix", .text limits.freshStem)]

def ofJson? (value : Json) : Option Limits := do
  let defaults : Limits := {}
  match ← value.fields? fieldNames with
  | [bound, basis, frontier, parallel, steps, equations, stem] =>
    return {
      rewriteBound := ← Json.fieldOr defaults.rewriteBound (Json.optional? (Json.natural? maxLimit)) bound
      acMaxBasis := ← Json.fieldOr defaults.acMaxBasis (Json.natural? maxLimit) basis
      acMaxFrontier := ← Json.fieldOr defaults.acMaxFrontier (Json.natural? maxLimit) frontier
      acParallel := ← Json.fieldOr defaults.acParallel Json.bool? parallel
      expMaxSteps := ← Json.fieldOr defaults.expMaxSteps (Json.natural? maxLimit) steps
      expMaxEquations := ← Json.fieldOr defaults.expMaxEquations (Json.natural? maxLimit) equations
      freshStem := ← Json.fieldOr defaults.freshStem Json.text? stem }
  | _ => none

def toText (limits : Limits) : String :=
  limits.toJson.pretty

def ofText? (source : String) : Option Limits :=
  (Json.parse? source).bind ofJson?

end Limits

end Equational
