import Equational.Substitution.Apply

/-! One-way matching. Only the variables of the pattern are instantiated; those of the term stand
for themselves, even where the two share names. -/

namespace Equational

namespace Term

mutual

/-- Extends the bindings so that the pattern becomes the term. The two arguments of a binary
commutative symbol may match in either order. -/
def matchInto : Term → Term → List (Variable × Term) → Option (List (Variable × Term))
  | var v, t, bindings =>
    if v.sort != t.sort then none
    else
      match bindings.lookup v with
      | some bound => if bound == t then some bindings else none
      | none => some (bindings ++ [(v, t)])
  | const c, const d, bindings => if c == d then some bindings else none
  | node f patterns, node g args, bindings =>
    if f != g || patterns.length != args.length then none
    else if f.theory == .commutative && patterns.length == 2 then
      match matchList patterns args bindings with
      | some extended => some extended
      | none => matchList patterns args.reverse bindings
    else matchList patterns args bindings
  | _, _, _ => none

def matchList : List Term → List Term → List (Variable × Term) → Option (List (Variable × Term))
  | pattern :: patterns, t :: ts, bindings => (matchInto pattern t bindings).bind (matchList patterns ts)
  | _, _, bindings => some bindings

end

/-- The bindings of a match as a substitution. -/
def match? (pattern t : Term) : Option Substitution := do
  let bindings ← matchInto pattern t []
  (bindings.foldlM (fun (σ : Substitution) p => σ.add p.1 p.2) .empty).toOption

end Term

end Equational
