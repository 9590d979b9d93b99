import LayerCheck.Layer.Facts
import LayerCheck.Snapshot

/-!
# Refinement of atomic actions

An implementation that stands for an atomic action has to perform it in exactly one of its steps
between yields, and to leave globals and outputs as they are in all others. Two flags keep account:
`pc` is set once some step has changed the state, `ok` once the action has been performed. Copies of
the outputs from the beginning of the step are kept beside the snapshot of the globals.
-/

namespace LayerCheck

structure ActionRefinement where
  globals : List Variable
  outputs : List Variable
  /-- The gate of the action, over the inputs of the implementation. -/
  gate : Expr
  /-- The transition from the snapshot to the current state. -/
  transition : Expr

/-- The action to be refined, if there is one. -/
abbrev Refinement := Option ActionRefinement

namespace ActionRefinement

def pc : Variable := { name := "__pc", type := .bool }

def ok : Variable := { name := "__ok", type := .bool }

def oldOutput (v : Variable) : Variable := v.rename ("__old_out_" ++ v.name)

/-- The action for an implementation; formals correspond by position. -/
def ofAction (globals : List Variable) (i : Implementation) (a : AtomicAction) :
    ActionRefinement :=
  let formals := (Subst.ofFormals a.inputs (i.inputs.map Variable.expr)).insertAll
    ((a.outputs.map Variable.name).zip (i.outputs.map Variable.expr))
  { globals
    outputs := i.outputs
    gate := (Expr.conj a.gate).subst formals
    transition := a.transition.substOld formals (Snapshot.subst globals) }

def unchangedGlobals? (r : ActionRefinement) : Option Expr :=
  let old := Snapshot.subst r.globals
  if old.isEmpty then none
  else some (.conj (old.entries.map fun e => .eq (.var e.1) e.2))

def unchangedOutputs? (r : ActionRefinement) : Option Expr :=
  if r.outputs.isEmpty then none
  else some (.conj (r.outputs.map fun v => .eq v.expr (oldOutput v).expr))

/-- Neither globals nor outputs have changed in this step. -/
def unchanged (r : ActionRefinement) : Expr :=
  .conj (r.unchangedGlobals?.toList ++ r.unchangedOutputs?.toList)

def saveOutputs (r : ActionRefinement) : List Command :=
  Command.assignAll (r.outputs.map fun v => (oldOutput v).name) (r.outputs.map Variable.expr)

def setFlags (pcValue okValue : Expr) : Command :=
  .assign [pc.name, ok.name] [pcValue, okValue]

def initialMessage : String := "Transition invariant in initial state violated"

def finalMessage : String := "Transition invariant in final state violated"

def returnMessage : String := "Failed to execute atomic action before procedure return"

def repeatedMessage : String :=
  "A yield-to-yield fragment modifies abstract state after another fragment already did"

def loopGlobalsMessage : String := "Global variables modified in a yielding loop"

def loopOutputsMessage : String := "Output variables modified in a yielding loop"

end ActionRefinement

namespace Refinement

open ActionRefinement

def locals : Refinement → List Variable
  | none => []
  | some r => pc :: ok :: r.outputs.map oldOutput

def saveOutputs : Refinement → List Command
  | none => []
  | some r => r.saveOutputs

/-- Nothing has been done yet. -/
def initial : Refinement → List Command
  | none => []
  | some r => setFlags (.bool false) (.bool false) :: r.saveOutputs

/-- Until the action has been performed, its gate holds. -/
def assumeGate : Refinement → List Command
  | none => []
  | some r => [.assume (.or pc.expr r.gate)]

/-- The step performs the action or changes nothing, and changes nothing after the action. -/
def assertStep : Refinement → List Command
  | none => []
  | some r =>
    [.assert (.or (.or pc.expr r.unchanged) r.transition) (some initialMessage),
      .assert (.implies pc.expr r.unchanged) (some finalMessage)]

/-- The step belongs to a yielding loop and changes nothing. -/
def assertLoopGlobals : Refinement → List Command
  | none => []
  | some r => r.unchangedGlobals?.toList.map fun e => .assert e (some loopGlobalsMessage)

def assertLoopOutputs : Refinement → List Command
  | none => []
  | some r => r.unchangedOutputs?.toList.map fun e => .assert e (some loopOutputsMessage)

/-- The action has been performed. -/
def assertReturn : Refinement → List Command
  | none => []
  | some _ => [.assert ok.expr (some returnMessage)]

/-- Accounts for the step that just ended, which may have performed the action. -/
def endStep : Refinement → List Command
  | none => []
  | some r =>
    [setFlags (.implies (r.unchangedGlobals?.getD (.bool true)) pc.expr) (.or ok.expr r.transition)]

/-- Accounts for a step that is marked as the one that performs the action. -/
def endMarkedStep : Refinement → List Command
  | none => []
  | some _ => [.assert (.not pc.expr) (some repeatedMessage), setFlags (.bool true) (.bool true)]

end Refinement

end LayerCheck
