import LayerCheck.Expr.Subst
import LayerCheck.Program.Basic

/-!
# Layer facts

What has been established about a program layer by layer: which procedures yield and up to which
layer, the atomic actions that they stand for, the invariants that hold at their yields, and the
loops whose rounds are separated by yields.
-/

namespace LayerCheck

abbrev Layer := Nat

structure LayerRange where
  lower : Layer
  upper : Layer
deriving DecidableEq, Repr, Inhabited

instance : Membership Layer LayerRange where
  mem r l := r.lower ≤ l ∧ l ≤ r.upper

instance (l : Layer) (r : LayerRange) : Decidable (l ∈ r) :=
  inferInstanceAs (Decidable (r.lower ≤ l ∧ l ≤ r.upper))

/-- A predicate over its inputs and the globals that may be relied on at yields. It is checked
against other threads at one layer. -/
structure YieldInvariant where
  name : String
  layer : Layer
  inputs : List Variable := []
  requires : List Clause := []
deriving Repr, Inhabited

/-- The clauses of the invariant with actual arguments in place of its inputs. -/
def YieldInvariant.instantiate (i : YieldInvariant) (actuals : List Expr) : List Clause :=
  let s := Subst.ofFormals i.inputs actuals
  i.requires.map (Clause.map (·.subst s))

inductive Mover where
  | left
  | right
  | both
  | non
deriving DecidableEq, Repr, Inhabited

inductive YieldingKind where
  /-- Commutes with what other threads do, and is atomic from its upper layer on. -/
  | mover (type : Mover)
  /-- Stands for an atomic action from its upper layer on. -/
  | action (name : String)
deriving DecidableEq, Repr, Inhabited

structure YieldingProcedure where
  kind : YieldingKind
  upper : Layer
  /-- Calls of yield invariants that hold on entry. -/
  requires : List Call := []
  /-- Calls of yield invariants that hold on exit. -/
  ensures : List Call := []
deriving Repr, Inhabited

namespace YieldingProcedure

def isMover (y : YieldingProcedure) : Bool :=
  match y.kind with
  | .mover _ => true
  | .action _ => false

/-- A mover is atomic at its upper layer, so its body has no yields there. -/
def isAtomicAt (y : YieldingProcedure) (l : Layer) : Bool := y.isMover && y.upper == l

def action? (y : YieldingProcedure) : Option String :=
  match y.kind with
  | .mover _ => none
  | .action name => some name

end YieldingProcedure

/-- A gate, and a transition from the old globals to the current ones. -/
structure AtomicAction where
  name : String
  inputs : List Variable := []
  outputs : List Variable := []
  gate : List Expr := []
  transition : Expr := .bool true
  layers : LayerRange
  /-- The actions that this one may leave to be performed later. -/
  pending : List String := []
deriving Repr, Inhabited

structure BlockRef where
  implementation : String
  label : String
deriving DecidableEq, Repr, Inhabited

/-- A loop that yields in every round, with the invariants that hold at its header. -/
structure YieldingLoop where
  layers : List Layer := []
  invariants : List Call := []
deriving Repr, Inhabited

/-- The layers in ascending order. -/
def YieldingLoop.ascendingLayers (l : YieldingLoop) : List Layer := l.layers.mergeSort.eraseDups

structure Facts where
  globals : List Variable := []
  procedures : Table String YieldingProcedure := ∅
  invariants : Table String YieldInvariant := ∅
  actions : Table String AtomicAction := ∅
  /-- By the block that heads the loop. -/
  loops : Table BlockRef YieldingLoop := ∅
  invariants_keyed : invariants.KeyedBy YieldInvariant.name := by
    first | exact Table.keyedBy_empty | decide | simp

instance : Inhabited Facts where
  default := {}

namespace Facts

def globalNames (f : Facts) : List String := f.globals.map Variable.name

def activeInvariants (f : Facts) (l : Layer) : List YieldInvariant :=
  f.invariants.values.filter (·.layer == l)

/-- The invariant that a call names, if it is checked at the layer. -/
def activeInvariant? (f : Facts) (l : Layer) (c : Call) : Option YieldInvariant :=
  (f.invariants.get? c.callee).filter (·.layer == l)

/-- What the actions of a layer may leave to be performed later, each target once. -/
def pendingTargets (f : Facts) (l : Layer) : List String :=
  ((f.actions.values.filter fun a => l ∈ a.layers).flatMap AtomicAction.pending).eraseDups

def addInvariant (f : Facts) (i : YieldInvariant) : Facts :=
  { f with
    invariants := f.invariants.insert i.name i
    invariants_keyed := f.invariants_keyed.insert rfl }

def addAction (f : Facts) (a : AtomicAction) : Facts :=
  { f with actions := f.actions.insert a.name a }

end Facts

end LayerCheck
