import LayerCheck.Setting

/-!
# Pending work

What an action leaves to be performed later happens at some time between yields of others. For each
target of the layer a checker performs the action once, from any state in which its gate holds, and
then runs all checks of interference.
-/

namespace LayerCheck.PendingAsync

def checkerName (target : String) (l : Layer) : String :=
  "PendingAsyncNoninterferenceChecker_" ++ target ++ "_" ++ toString l

def procedure (s : Setting) (l : Layer) (target : String) (a : AtomicAction) : Procedure :=
  { name := checkerName target l
    inputs := a.inputs
    outputs := a.outputs
    requires := a.gate.map fun e => { condition := e }
    modifies := s.facts.globalNames }

/-- The call that performs the action. -/
def perform (target : String) (a : AtomicAction) : Command :=
  .call {
    id := .generated
    callee := target
    ins := a.inputs.map Variable.expr
    outs := a.outputs.map Variable.name }

def implementation (s : Setting) (l : Layer) (target : String) (a : AtomicAction) :
    Implementation :=
  let interference := s.interference l
  { name := checkerName target l
    procedure := checkerName target l
    inputs := a.inputs
    outputs := a.outputs
    locals := Snapshot.shadows s.globals ++ interference.locals
    blocks := [{
      label := "entry"
      commands := Snapshot.update s.globals ++ interference.collect (.entry target) a.inputs ++
        perform target a :: interference.dispatch }] }

/-- The checkers of all targets of the layer; none if interference is trusted. -/
def declarations (s : Setting) (l : Layer) : List Declaration :=
  if s.trusted then []
  else (s.facts.pendingTargets l).flatMap fun target =>
    match s.facts.actions.get? target with
    | none => []
    | some a => [.procedure (procedure s l target a), .implementation (implementation s l target a)]

end LayerCheck.PendingAsync
