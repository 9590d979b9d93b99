import LayerCheck.Permission.Basic
import LayerCheck.Snapshot

/-!
# Interference

Other threads may run at yields, and what is relied on there has to hold in spite of them. Either
this is trusted and nothing is emitted for it, or the step that just ended is handed to the
dispatcher of all checks: the permissions held since the last yield and the globals as they were.
-/

namespace LayerCheck

structure Tracker where
  permissions : Permissions
  globals : List Variable
  /-- The procedure that runs the checks. -/
  dispatcher : String

namespace Tracker

/-- One local for each domain. -/
def collectors (t : Tracker) : List Variable := t.permissions.domains.values.map Domain.collector

end Tracker

inductive Interference where
  | trusted
  | checked (t : Tracker)

namespace Interference

def locals : Interference → List Variable
  | trusted => []
  | checked t => t.collectors

/-- Stores the permissions that are available at the site. -/
def collect (i : Interference) (s : Site) (scope : List Variable) : List Command :=
  match i with
  | trusted => []
  | checked t =>
    Command.assignAll (t.collectors.map Variable.name)
      ((t.permissions.unions s scope).map Prod.snd)

/-- Runs the checks on the step that just ended. -/
def dispatch : Interference → List Command
  | trusted => []
  | checked t =>
    [.call {
      id := .generated
      callee := t.dispatcher
      ins := (t.collectors ++ Snapshot.shadows t.globals).map Variable.expr }]

end Interference

end LayerCheck
