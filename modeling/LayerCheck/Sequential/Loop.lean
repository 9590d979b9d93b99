import LayerCheck.Flow.Prune
import LayerCheck.Permission.Disjointness
import LayerCheck.Sequential.Split
import LayerCheck.Sequential.Step

/-!
# Yielding loops

The head of a yielding loop ends one step and begins the next, although no yield stands there. Its
predecessors get the checks of the step that ends, and its own commands begin with the invariants of
the loop, in a state in which every global counts as modified.
-/

namespace LayerCheck.Sequential

/-- The yielding loop of the layer that a block of the copy heads. -/
def loop? (q : Sequential) (label : String) : Option YieldingLoop :=
  q.setting.copies.activeLoop? q.setting.facts q.layer ⟨q.name, label⟩

/-- The reachable blocks of the copy, with the disjointness assumptions and split. -/
@[irreducible] def base (q : Sequential) : Implementation :=
  let s := q.setting
  let i := q.plan.implementation.withDisjointness s.permissions s.copies s.yielding
  (i.split ((s.preparedBlocks i).values.map Block.label)).prune

/-- The heads of the yielding loops of the layer. -/
def headers (q : Sequential) : List String := q.base.labels.filter fun l => (q.loop? l).isSome

/-- The blocks of the yielding loops of the layer. -/
def inLoops (q : Sequential) : List String := q.base.flow.blocksInLoops q.headers

def loopInvariants (q : Sequential) (header : String) : List Command :=
  let calls := ((q.loop? header).map YieldingLoop.invariants).getD []
  (q.setting.activeClauses q.layer id calls).map Clause.command

/-- Assigns every global to itself, so that it counts as modified. -/
def touchGlobals (q : Sequential) : List Command :=
  Command.assignAll (q.globals.map Variable.name) (q.globals.map Variable.expr)

/-- The head of a yielding loop: the assumptions at its very beginning, the invariants, and the
beginning of a step. -/
def openLoop (q : Sequential) (b : Block) : Block :=
  let predicates := Command.leadingPredicates b.commands
  { b with
    commands := predicates ++ q.refinement.assumeGate ++ q.loopInvariants b.label ++
      q.touchGlobals ++ q.beginStep (q.setting.copies.headSite q.name b.label) ++
      b.commands.drop predicates.length }

/-- Checks the steps that end at the header, in all its predecessors, and opens the loop. -/
def enterLoop (q : Sequential) (g : FlowGraph) (inLoops : List String) (blocks : List Block)
    (header : String) : List Block :=
  let checked := (g.predecessors header).foldl (fun bs p =>
    Block.modifyFirst p (checkStep (inLoops.contains p)) bs) blocks
  Block.modifyFirst header q.openLoop checked

/-- The blocks with all yielding loops opened. -/
def opened (q : Sequential) : List Block :=
  let i := q.base
  let g := i.flow
  let inLoops := q.inLoops
  q.headers.foldl (q.enterLoop g inLoops) i.blocks

end LayerCheck.Sequential
