import LayerCheck.Contract
import LayerCheck.Sequential.Branch
import LayerCheck.Sequential.Head

/-!
# The sequential body

The blocks of a copy without yields and parallel calls, between an initial block that sets the stage
and the blocks that check the steps. Every way through a checking block ends there.
-/

namespace LayerCheck.Sequential

/-- Starts as `entry` says, when nothing has been done yet, and goes on with the first of the other
blocks. -/
def initialBlockFrom (q : Sequential) (entry : List Command) (others : List Block) : Block :=
  { label := Label.initial
    commands := entry ++ Snapshot.update q.globals ++ q.refinement.initial ++
      q.interference.collect q.plan.entrySite q.plan.implementation.inputs
    transfer := .goto (others.head?.toList.map Block.label) }

/-- The checks of steps, and the only block that returns. -/
def checkers (q : Sequential) : List Block :=
  let r := q.refinement
  [.sink Label.noninterference q.interference.dispatch,
    .sink Label.refinement r.assertStep,
    .sink Label.loopRefinement (r.assertLoopGlobals ++ r.assertLoopOutputs),
    .sink Label.returning (r.assertStep ++ r.endStep ++ r.assertReturn),
    { label := Label.unifiedReturn }]

/-- The blocks that follow the initial one. If labels are repeated, the body itself may be left
without a block; the checks are always there. -/
def others (q : Sequential) : List Block :=
  let opened := q.opened
  let heads := preemptions opened
  let inLoops := q.inLoops
  opened.map (fun b => q.replaceHead inLoops (q.branch heads inLoops b)) ++
    q.checkers ++ q.spliced heads opened

def blocksFrom (q : Sequential) (entry : List Command) : List Block :=
  let others := q.others
  q.initialBlockFrom entry others :: others

/-- The copy as a sequential program. -/
def implementationFrom (q : Sequential) (entry : List Command) : Implementation :=
  let i := q.plan.implementation
  { i with blocks := q.blocksFrom entry, locals := i.locals ++ q.locals }

/-- The parallel calls that have become calls of aggregators, in order. -/
def parCalls (q : Sequential) : List ParCall :=
  q.opened.filterMap fun b =>
    match b.head? with
    | some (.par p) => some p
    | _ => none

end LayerCheck.Sequential
