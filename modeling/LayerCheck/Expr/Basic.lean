/-!
# Expressions

Types, typed variables and the expressions that commands and contracts share. `Expr.old` reads its
argument in the state before the current step or procedure.
-/

namespace LayerCheck

inductive Ty where
  | bool
  | int
  | map (domain range : Ty)
  | named (name : String)
deriving DecidableEq, Repr, Inhabited

/-- A variable with its type and, if it is linear, the domain of the permissions it carries. -/
structure Variable where
  name : String
  type : Ty
  domain? : Option String := none
deriving DecidableEq, Repr, Inhabited

namespace Variable

def rename (v : Variable) (name : String) : Variable := { v with name }

def isLinear (v : Variable) : Bool := v.domain?.isSome

end Variable

inductive BinOp where
  | and | or | implies
  | eq | ne | lt | le | gt | ge
  | add | sub
deriving DecidableEq, Repr, Inhabited

inductive Quantifier where
  | all
  | some
deriving DecidableEq, Repr, Inhabited

inductive Expr where
  | bool (b : Bool)
  | int (n : Int)
  | var (name : String)
  | old (e : Expr)
  | not (e : Expr)
  | binary (op : BinOp) (lhs rhs : Expr)
  | app (function : String) (args : List Expr)
  | quant (q : Quantifier) (vars : List Variable) (body : Expr)
deriving Repr, Inhabited

def Variable.expr (v : Variable) : Expr := .var v.name

namespace Expr

abbrev and (a b : Expr) : Expr := .binary .and a b

abbrev or (a b : Expr) : Expr := .binary .or a b

abbrev implies (a b : Expr) : Expr := .binary .implies a b

abbrev eq (a b : Expr) : Expr := .binary .eq a b

/-- The conjunction of the list, nested to the left; `true` if there is nothing to join. -/
def conj : List Expr → Expr
  | [] => .bool true
  | e :: es => es.foldl and e

/-- The disjunction of the list, nested to the left; `false` if there is nothing to join. -/
def disj : List Expr → Expr
  | [] => .bool false
  | e :: es => es.foldl or e

def isFalse : Expr → Bool
  | .bool false => true
  | _ => false

end Expr

end LayerCheck
