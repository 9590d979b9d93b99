import LayerCheck.Sequential.Loop

/-!
# Branches to the checks

A step ends where a block jumps to a yield or a parallel call, and where the body returns. There the
blocks get jumps to the checks of the step, and to the prepared checks of the components of a
parallel call.
-/

namespace LayerCheck

/-- The prepared check of a component of a parallel call. -/
structure Component where
  id : CommandId
  /-- The component performs the action of its caller. -/
  refining : Bool
  block : Block

/-- The yield or parallel call that a block begins with. -/
def Block.preemption? (b : Block) : Option Command := b.head?.filter Command.isPreemption

/-- The yields and parallel calls at the heads of blocks, by label. -/
def preemptions (blocks : List Block) : Table String Command :=
  .ofList (blocks.filterMap fun b => b.preemption?.map (b.label, ·))

namespace Sequential

/-- The prepared checks of a parallel call. -/
def components (q : Sequential) : Command → List Component
  | .par p => p.calls.filterMap fun c =>
    (q.setting.refinementBlocks.get? c.id).map fun block =>
      { id := c.id, refining := c.isRefining, block }
  | _ => []

/-- The yields and parallel calls that a block jumps to. -/
def targets (heads : Table String Command) (b : Block) : List Command :=
  b.successors.filterMap heads.get?

/-- What a body that returns does instead: its last step is checked, or it goes on. -/
def checkReturn (b : Block) : Block :=
  { b with transfer := .goto [Label.returning, Label.unifiedReturn, Label.noninterference] }

/-- Branches off to the checks of the steps that end with the block. -/
def branch (q : Sequential) (heads : Table String Command) (inLoops : List String) (b : Block) :
    Block :=
  if b.transfer.isReturn then checkReturn b
  else
    let next := targets heads b
    let b := (next.flatMap q.components).foldl (fun b c => b.addSuccessor c.block.label) b
    if next.isEmpty then b else checkStep (inLoops.contains b.label) b

/-- A prepared check: a step of its own from an arbitrary state in which the gate holds. The step
that performs the action is checked as at a return, any other has to change nothing. -/
def completed (q : Sequential) (c : Component) : Block :=
  let b := { c.block with
    commands := q.setting.havocGlobals ++ q.refinement.assumeGate ++ q.store ++ c.block.commands }
  b.addSuccessor (if c.refining then Label.returning else Label.loopRefinement)

/-- The prepared checks of all parallel calls that are jumped to, each once. -/
def spliced (q : Sequential) (heads : Table String Command) (blocks : List Block) : List Block :=
  let components := (blocks.flatMap (targets heads)).flatMap q.components
  (components.foldl (fun t c => Table.insertIfNew t c.id (q.completed c)) ∅).values

end Sequential

end LayerCheck
