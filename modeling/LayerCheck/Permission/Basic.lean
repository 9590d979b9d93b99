import LayerCheck.Layer.Copies
import LayerCheck.Permission.Domain

/-!
# Available permissions

For some sites of the source it is recorded which linear variables are available there. At an entry
for which nothing is recorded all of them are; at any other such site none is.
-/

namespace LayerCheck

inductive Site where
  /-- The entry of an implementation or action. -/
  | entry (name : String)
  | loopHead (block : BlockRef)
  /-- After a call, yield or parallel call. -/
  | command (id : CommandId)
deriving DecidableEq, Repr, Inhabited

def Site.isEntry : Site → Bool
  | .entry _ => true
  | _ => false

/-- The head of a block, under the name of its source. -/
def Copies.headSite (c : Copies) (implementation label : String) : Site :=
  .loopHead (c.resolve ⟨implementation, label⟩)

structure Permissions where
  domains : Table String Domain := ∅
  recorded : Table Site (List String) := ∅
  domains_keyed : domains.KeyedBy Domain.name := by
    first | exact Table.keyedBy_empty | decide | simp

instance : Inhabited Permissions where
  default := {}

namespace Permissions

def addDomain (p : Permissions) (d : Domain) : Permissions :=
  { p with
    domains := p.domains.insert d.name d
    domains_keyed := p.domains_keyed.insert rfl }

def record (p : Permissions) (s : Site) (names : List String) : Permissions :=
  { p with recorded := p.recorded.insert s names }

/-- The linear variables of the scope that are available at the site. -/
def available (p : Permissions) (s : Site) (scope : List Variable) : List Variable :=
  let linear := scope.filter Variable.isLinear
  match p.recorded.get? s with
  | some names => linear.filter (·.name ∈ names)
  | none => if s.isEntry then linear else []

/-- Adds what the variable carries to the sets of its domain, if that is known. -/
def addSet (p : Permissions) (t : Table String (List Expr)) (v : Variable) :
    Table String (List Expr) :=
  match v.domain?.bind p.domains.get? with
  | none => t
  | some d => t.modify d.name (· ++ [d.collect v])

/-- What the variables carry, by the name of the domain. -/
def collected (p : Permissions) (vars : List Variable) : Table String (List Expr) :=
  vars.foldl p.addSet (.ofList (p.domains.values.map fun d => (d.name, [])))

/-- For every domain the union of what is available at the site. -/
def unions (p : Permissions) (s : Site) (scope : List Variable) : List (Domain × Expr) :=
  (p.collected (p.available s scope)).entries.filterMap fun (name, sets) =>
    (p.domains.get? name).map fun d => (d, d.union sets)

/-- For every domain that what the variables carry is disjoint. -/
def disjointness (p : Permissions) (vars : List Variable) : List Expr :=
  (p.collected vars).entries.filterMap fun (name, sets) =>
    (p.domains.get? name).bind (·.disjoint? sets)

/-- That what is available at the site is disjoint, and from what linear globals carry. -/
def disjointnessAt (p : Permissions) (s : Site) (scope : List Variable)
    (globals : List Variable := []) : List Expr :=
  p.disjointness (p.available s scope ++ globals.filter Variable.isLinear)

def assumeDisjoint (p : Permissions) (s : Site) (scope : List Variable)
    (globals : List Variable := []) : List Command :=
  (p.disjointnessAt s scope globals).map .assume

end Permissions

end LayerCheck
