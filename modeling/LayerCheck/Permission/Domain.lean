import LayerCheck.Program.Basic

/-!
# Permission domains

A linear variable carries permissions of a domain, as a set of elements. Sets are written with
functions named after the domain.
-/

namespace LayerCheck

structure Domain where
  name : String
  element : Ty
deriving DecidableEq, Repr, Inhabited

namespace Domain

/-- A set of permissions is a map from elements to truth values. -/
def setType (d : Domain) : Ty := .map d.element .bool

def collect (d : Domain) (v : Variable) : Expr := .app (d.name ++ "_collect") [v.expr]

def union (d : Domain) : List Expr → Expr
  | [] => .app (d.name ++ "_empty") []
  | [e] => e
  | es => .app (d.name ++ "_union") es

/-- That the sets are pairwise disjoint; nothing is said of fewer than two. -/
def disjoint? (d : Domain) (sets : List Expr) : Option Expr :=
  if sets.length < 2 then none else some (.app (d.name ++ "_disjoint") sets)

/-- What the variables of the domain carry. -/
def held (d : Domain) (vars : List Variable) : List Expr :=
  (vars.filter fun v => v.domain? = some d.name).map d.collect

/-- The formal by which a check receives the permissions of a thread that yields. -/
def formal (d : Domain) : Variable := { name := "__linear_" ++ d.name ++ "_in", type := d.setType }

/-- The local that holds the permissions of the last yield. -/
def collector (d : Domain) : Variable := { name := "__perm_" ++ d.name, type := d.setType }

/-- That a set is disjoint from what the variables carry, and they from each other. -/
def disjointWith? (d : Domain) (set : Variable) (vars : List Variable) : Option Expr :=
  d.disjoint? (set.expr :: d.held vars)

end Domain

end LayerCheck
