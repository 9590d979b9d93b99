import LayerCheck.Program.Block
import LayerCheck.Table

/-!
# Programs

Procedures carry contracts, implementations carry blocks, and a program keeps both by name in the
order in which they were added. The first block of an implementation is its entry.
-/

namespace LayerCheck

/-- A condition of a contract. A free condition is assumed but never checked. -/
structure Clause where
  free : Bool := false
  condition : Expr
deriving Repr, Inhabited

namespace Clause

def map (f : Expr → Expr) (c : Clause) : Clause := { c with condition := f c.condition }

/-- Assumes a free condition and asserts any other. -/
def command (c : Clause) : Command :=
  if c.free then .assume c.condition else .assert c.condition

end Clause

/-- The attribute of procedures whose calls are to be expanded by whoever checks the program. -/
def inlineAttribute : String := "inline"

structure Procedure where
  name : String
  typeParams : List String := []
  inputs : List Variable := []
  outputs : List Variable := []
  requires : List Clause := []
  modifies : List String := []
  ensures : List Clause := []
  attributes : List String := []
deriving Repr, Inhabited

structure Implementation where
  name : String
  /-- The procedure that is implemented. -/
  procedure : String
  typeParams : List String := []
  inputs : List Variable := []
  outputs : List Variable := []
  locals : List Variable := []
  blocks : List Block := []
  attributes : List String := []
deriving Repr, Inhabited

namespace Implementation

def labels (i : Implementation) : List String := i.blocks.map Block.label

def entryLabel? (i : Implementation) : Option String := i.labels.head?

def indexOf? (i : Implementation) (label : String) : Option Nat := i.labels.idxOf? label

/-- The first block with the label. -/
def block? (i : Implementation) (label : String) : Option Block :=
  i.blocks.find? (·.label == label)

/-- Formals, then locals. -/
def vars (i : Implementation) : List Variable := i.inputs ++ i.outputs ++ i.locals

/-- The parallel calls of the implementation, in order. -/
def parCalls (i : Implementation) : List ParCall :=
  (i.blocks.flatMap Block.commands).filterMap fun
    | .par p => some p
    | _ => none

end Implementation

/-- Changes the first block with the label, if there is one. -/
def Block.modifyFirst (label : String) (f : Block → Block) : List Block → List Block
  | [] => []
  | b :: bs => if b.label = label then f b :: bs else b :: modifyFirst label f bs

/-- Adds the jump to `target` to the first block with the label `source`, if there is one. -/
def Implementation.addEdge (i : Implementation) (source target : String) : Implementation :=
  { i with blocks := Block.modifyFirst source (·.addSuccessor target) i.blocks }

inductive Declaration where
  | procedure (p : Procedure)
  | implementation (i : Implementation)
deriving Repr, Inhabited

namespace Declaration

def name : Declaration → String
  | .procedure p => p.name
  | .implementation i => i.name

def procedure? : Declaration → Option Procedure
  | .procedure p => some p
  | .implementation _ => none

end Declaration

structure Program where
  globals : List Variable := []
  procedures : Table String Procedure := ∅
  implementations : Table String Implementation := ∅
  implementations_keyed : implementations.KeyedBy Implementation.name := by
    first | exact Table.keyedBy_empty | decide | simp

instance : Inhabited Program where
  default := {}

namespace Program

def addGlobal (p : Program) (v : Variable) : Program := { p with globals := p.globals ++ [v] }

def addProcedure (p : Program) (q : Procedure) : Program :=
  { p with procedures := p.procedures.insert q.name q }

def addImplementation (p : Program) (i : Implementation) : Program :=
  { p with
    implementations := p.implementations.insert i.name i
    implementations_keyed := p.implementations_keyed.insert rfl }

def addDeclaration (p : Program) : Declaration → Program
  | .procedure q => p.addProcedure q
  | .implementation i => p.addImplementation i

def addDeclarations (p : Program) (ds : List Declaration) : Program :=
  ds.foldl addDeclaration p

end Program

end LayerCheck
