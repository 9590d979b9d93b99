import LayerCheck.Expr.Subst
import LayerCheck.Program.Basic

/-!
# Snapshots

Locals that hold the globals as they were when the current step began.
-/

namespace LayerCheck.Snapshot

def shadow (g : Variable) : Variable := g.rename ("__snapshot_" ++ g.name)

def shadows (globals : List Variable) : List Variable := globals.map shadow

/-- Takes a new snapshot of all globals at once. -/
def update (globals : List Variable) : List Command :=
  Command.assignAll ((shadows globals).map Variable.name) (globals.map Variable.expr)

/-- Reads every global from the snapshot. -/
def subst (globals : List Variable) : Subst :=
  .ofList (globals.map fun g => (g.name, (shadow g).expr))

end LayerCheck.Snapshot
