import LayerCheck.Expr.Basic

/-!
# Free variables

`Expr.occurrences` lists the free occurrences of variables from left to right, and `Expr.freeVars`
keeps the first of each.
-/

namespace LayerCheck.Expr

mutual

def occurrences : Expr → List String
  | .bool _ => []
  | .int _ => []
  | .var x => [x]
  | .old e => e.occurrences
  | .not e => e.occurrences
  | .binary _ a b => a.occurrences ++ b.occurrences
  | .app _ args => occurrencesOfList args
  | .quant _ vars body => body.occurrences.filter (· ∉ vars.map Variable.name)

def occurrencesOfList : List Expr → List String
  | [] => []
  | e :: es => e.occurrences ++ occurrencesOfList es

end

/-- The free variables in the order of their first occurrences. -/
def freeVars (e : Expr) : List String := e.occurrences.eraseDups

theorem mem_freeVars {e : Expr} {x : String} : x ∈ e.freeVars ↔ x ∈ e.occurrences :=
  List.mem_eraseDups

end LayerCheck.Expr
