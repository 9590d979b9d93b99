import LayerCheck.Expr.FreeVars
import LayerCheck.Expr.Fresh
import LayerCheck.Table

/-!
# Substitution

Replacing free variables by expressions, without capture: a bound variable that would capture a
variable of a replacement is renamed first.

* `Expr.subst` substitutes below `old` as everywhere else and keeps `old`.
* `Expr.substOld` takes `old` away: below it, a second substitution has precedence.
-/

namespace LayerCheck

/-- The expressions that stand for some variables. -/
abbrev Subst := Table String Expr

namespace Subst

/-- Pairs formals with actuals, as far as both go. -/
def ofFormals (formals : List Variable) (actuals : List Expr) : Subst :=
  Table.ofList ((formals.map Variable.name).zip actuals)

def without (s : Subst) (vars : List Variable) : Subst := s.eraseAll (vars.map Variable.name)

/-- The variables that occur free in a replacement. -/
def freeVars (s : Subst) : List String := s.values.flatMap Expr.freeVars

end Subst

/-- What a traversal replaces. `past?` is there if `old` is to go: it has precedence below `old`. -/
structure Replacement where
  current : Subst
  past? : Option Subst := none

namespace Replacement

def get? (r : Replacement) (inOld : Bool) (x : String) : Option Expr :=
  if inOld then (r.past?.bind (·.get? x)).or (r.current.get? x) else r.current.get? x

def freeVars (r : Replacement) : List String :=
  r.current.freeVars ++ (r.past?.map Subst.freeVars).getD []

def without (r : Replacement) (vars : List Variable) : Replacement :=
  { current := r.current.without vars, past? := r.past?.map (·.without vars) }

def insert (r : Replacement) (x : String) (e : Expr) : Replacement :=
  { current := r.current.insert x e, past? := r.past?.map (·.insert x e) }

/-- The new name of a variable that is bound next to `vars` over `body`: its own, unless a
replacement mentions it. -/
def binderName (r : Replacement) (vars : List Variable) (body : Expr) (x : String) : String :=
  let captured := (r.without vars).freeVars
  if x ∈ captured then Fresh.binder x (captured ++ body.freeVars ++ vars.map Variable.name) else x

def binders (r : Replacement) (vars : List Variable) (body : Expr) : List Variable :=
  vars.map fun v => v.rename (r.binderName vars body v.name)

/-- The replacement below a quantifier over `vars`: none of the bound variables, but for those
that get a new name. -/
def under (r : Replacement) (vars : List Variable) (body : Expr) : Replacement :=
  vars.foldl (fun inner v =>
    let name := r.binderName vars body v.name
    if name = v.name then inner else inner.insert v.name (.var name)) (r.without vars)

end Replacement

namespace Expr

mutual

def replace (r : Replacement) (inOld : Bool) : Expr → Expr
  | .bool b => .bool b
  | .int n => .int n
  | .var x => (r.get? inOld x).getD (.var x)
  | .old e => if r.past?.isSome then e.replace r true else .old (e.replace r inOld)
  | .not e => .not (e.replace r inOld)
  | .binary op a b => .binary op (a.replace r inOld) (b.replace r inOld)
  | .app f args => .app f (replaceList r inOld args)
  | .quant q vars body =>
    .quant q (r.binders vars body) (body.replace (r.under vars body) inOld)

def replaceList (r : Replacement) (inOld : Bool) : List Expr → List Expr
  | [] => []
  | e :: es => e.replace r inOld :: replaceList r inOld es

end

/-- Replaces the free variables that `s` maps. -/
def subst (e : Expr) (s : Subst) : Expr := e.replace { current := s } false

/-- Replaces by `always` outside `old`; inside, by `forOld` and failing that by `always`, and the
`old` around goes. -/
def substOld (e : Expr) (always forOld : Subst) : Expr :=
  e.replace { current := always, past? := some forOld } false

end Expr

end LayerCheck
