import LayerCheck.Flow.Basic
import LayerCheck.LayerError
import LayerCheck.Setting

/-!
# Plans

Before a layer is touched, everything that its instrumentation will look up is looked up. The answer
is one plan for each copy of an implementation, or the first fault. So a layer that is rejected is
left as it was.
-/

namespace LayerCheck

/-! ## Labels of the blocks that instrumentation adds -/

namespace Label

def initial : String := "__init"

def noninterference : String := "NoninterferenceChecker"

def refinement : String := "RefinementChecker"

/-- Checks steps that belong to yielding loops. -/
def loopRefinement : String := "RefinementCheckerForYieldingLoops"

def returning : String := "ReturnChecker"

def unifiedReturn : String := "UnifiedReturn"

def reserved : List String :=
  [initial, noninterference, refinement, loopRefinement, returning, unifiedReturn]

end Label

/-! ## Plans -/

/-- A copy with all that it takes to make it sequential. -/
structure Plan where
  implementation : Implementation
  procedure : Procedure
  origin : Origin
  yielding : YieldingProcedure
  /-- The action that the copy has to refine at this layer. -/
  action? : Option AtomicAction

namespace Plan

def name (p : Plan) : String := p.implementation.name

/-- The copy is atomic at the layer, so it has no yields to be taken out. -/
def isAtomicAt (p : Plan) (l : Layer) : Bool := p.yielding.isAtomicAt l

end Plan

namespace Table

variable {ν : Type}

/-- The value of a key, or an error if there is none. -/
def require (t : Table String ν) (k : String) (e : String → LayerError) : Except LayerError ν :=
  match t.get? k with
  | some v => .ok v
  | none => .error (e k)

end Table

/-- Fails unless the numbers are the same. -/
def checkArity (subject : AritySubject) (name : String) (expected found : Nat) :
    Except LayerError Unit :=
  if expected = found then .ok () else .error (.arity subject name expected found)

/-- Fails with what `fault?` finds first. -/
def checkAll {α : Type} (fault? : α → Option LayerError) (l : List α) : Except LayerError Unit :=
  match l.findSome? fault? with
  | none => .ok ()
  | some e => .error e

def Facts.checkInvariantCall (f : Facts) (c : Call) : Except LayerError Unit := do
  let i ← f.invariants.require c.callee .unknownInvariant
  checkArity .invariantCall c.callee i.inputs.length c.ins.length

namespace Implementation

/-- There is an entry, and every jump leads to a block. -/
def checkBlocks (i : Implementation) : Except LayerError Unit := do
  if i.blocks.isEmpty then throw (.noBlocks i.name)
  checkAll (fun b =>
    (b.successors.find? (· ∉ i.labels)).map (.danglingTarget i.name b.label)) i.blocks

/-- No label is reserved for the blocks that are added. -/
def checkLabels (i : Implementation) : Except LayerError Unit :=
  checkAll (fun l => if l ∈ Label.reserved then some (.reservedLabel i.name l) else none) i.labels

/-- Blocks with the labels can be added without any label getting a second block. -/
def checkAdded (i : Implementation) (seen : List String) : List String → Except LayerError Unit
  | [] => .ok ()
  | l :: ls =>
    if l ∈ Label.reserved ∨ l ∈ i.labels ∨ l ∈ seen then .error (.labelClash i.name l)
    else i.checkAdded (l :: seen) ls

def checkReducible (i : Implementation) : Except LayerError Unit :=
  if i.flow.isReducible then .ok () else .error (.irreducible i.name)

/-- A component of a parallel call has a callee with the right numbers of formals. -/
def checkComponent (i : Implementation) (p : Program) (c : Call) : Except LayerError Unit := do
  let callee ← p.procedures.require c.callee .unknownProcedure
  unless callee.typeParams.isEmpty do throw (.typeParameters i.name c.callee)
  checkArity .parallelInputs c.callee callee.inputs.length c.ins.length
  checkArity .parallelOutputs c.callee callee.outputs.length c.outs.length

end Implementation

namespace Setting

/-- The calls that a block stands for fit their callees: those of the invariants of the loop that
the block heads, and the components of parallel calls. -/
def checkBlock (s : Setting) (l : Layer) (p : Program) (i : Implementation) (b : Block) :
    Except LayerError Unit := do
  if let some loop := s.copies.activeLoop? s.facts l ⟨i.name, b.label⟩ then
    loop.invariants.forM s.facts.checkInvariantCall
  b.commands.forM fun
    | .par c => c.calls.forM (i.checkComponent p)
    | _ => .ok ()

def checkConcurrent (s : Setting) (l : Layer) (p : Program) (i : Implementation) :
    Except LayerError Unit := do
  i.checkLabels
  i.checkAdded [] ((s.preparedBlocks i).values.map Block.label)
  i.checkReducible
  i.blocks.forM (s.checkBlock l p i)

/-- The action that the implementation refines at the layer, which is the upper one of a procedure
that stands for an action. -/
def refinedAction (s : Setting) (l : Layer) (y : YieldingProcedure) (i : Implementation) :
    Except LayerError (Option AtomicAction) :=
  match y.action? with
  | none => .ok none
  | some name =>
    if y.upper = l then do
      let a ← s.facts.actions.require name .unknownAction
      checkArity .actionInputs name a.inputs.length i.inputs.length
      checkArity .actionOutputs name a.outputs.length i.outputs.length
      return some a
    else .ok none

def planCopy (s : Setting) (l : Layer) (p : Program) (name : String) (origin : Origin) :
    Except LayerError Plan := do
  let i ← p.implementations.require name .unknownImplementation
  let y ← s.facts.procedures.require origin.procedure .unknownYieldingProcedure
  if y.upper < l then throw (.aboveUpperLayer origin.procedure y.upper l)
  let q ← p.procedures.require i.procedure .unknownProcedure
  checkArity .implementationInputs i.name q.inputs.length i.inputs.length
  checkArity .implementationOutputs i.name q.outputs.length i.outputs.length
  (y.requires ++ y.ensures).forM s.facts.checkInvariantCall
  i.checkBlocks
  let action? ← s.refinedAction l y i
  unless y.isAtomicAt l do s.checkConcurrent l p i
  return { implementation := i, procedure := q, origin, yielding := y, action? }

/-- A target of pending work is an action and a procedure. -/
def checkPending (s : Setting) (p : Program) (target : String) : Except LayerError Unit := do
  let _ ← s.facts.actions.require target .unknownAction
  let _ ← p.procedures.require target .unknownProcedure

/-- The plans of all copies, in their order. -/
def plan (s : Setting) (l : Layer) (p : Program) : Except LayerError (List Plan) := do
  let plans ← s.copies.implementations.entries.mapM fun (name, origin) =>
    s.planCopy l p name origin
  unless s.trusted do (s.facts.pendingTargets l).forM (s.checkPending p)
  return plans

end Setting

end LayerCheck
