import LayerCheck.Interference.Dispatcher
import LayerCheck.Interference.Tracker
import LayerCheck.Options

/-!
# The setting of a layer

All that the instrumentation of a program reads beside the program itself.
-/

namespace LayerCheck

structure Setting where
  facts : Facts := default
  permissions : Permissions := {}
  copies : Copies := {}
  /-- The procedures whose calls are taken for yields. -/
  yielding : List String := []
  /-- Prepared checks of calls that are made in parallel, by the call. -/
  refinementBlocks : Table CommandId Block := ∅
  options : Options := {}
deriving Inhabited

namespace Setting

/-- Records a yielding procedure; its calls are taken for yields from now on. -/
def addYielding (s : Setting) (name : String) (y : YieldingProcedure) : Setting :=
  { s with
    facts := { s.facts with procedures := s.facts.procedures.insert name y }
    yielding := if name ∈ s.yielding then s.yielding else s.yielding ++ [name] }

abbrev trusted (s : Setting) : Bool := s.options.trustNoninterference

def globals (s : Setting) : List Variable := s.facts.globals

/-- The prepared checks of the parallel calls of an implementation, each once. -/
def preparedBlocks (s : Setting) (i : Implementation) : Table CommandId Block :=
  .ofList ((i.parCalls.flatMap ParCall.calls).filterMap fun c =>
    (s.refinementBlocks.get? c.id).map (c.id, ·))

/-- The formals of all checkers. -/
def checkerInputs (s : Setting) : List Variable := Checker.inputs s.permissions s.globals

def dispatcher (s : Setting) (l : Layer) : Procedure :=
  Dispatcher.procedure (Dispatcher.name l) s.checkerInputs

/-- What is emitted for interference if the procedure runs all checks. -/
def interferenceBy (s : Setting) (dispatcher : String) : Interference :=
  if s.trusted then .trusted
  else .checked { permissions := s.permissions, globals := s.globals, dispatcher }

def interference (s : Setting) (l : Layer) : Interference := s.interferenceBy (Dispatcher.name l)

/-- Gives all globals arbitrary values. -/
def havocGlobals (s : Setting) : List Command := Command.havocAll s.facts.globalNames

/-- The invariants of the calls that are checked at the layer, with the arguments that `actual`
makes of those of the call. -/
def activeClauses (s : Setting) (l : Layer) (actual : Expr → Expr) (calls : List Call) :
    List Clause :=
  calls.flatMap fun c =>
    ((s.facts.activeInvariant? l c).map fun i => i.instantiate (c.ins.map actual)).getD []

end Setting

end LayerCheck
