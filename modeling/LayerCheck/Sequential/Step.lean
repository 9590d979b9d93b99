import LayerCheck.Plan
import LayerCheck.Refinement

/-!
# Steps

The body of a copy runs from yield to yield; what lies between is a step. Where a step begins, the
globals, the outputs and the permissions at hand are stored. Where it ends, a branch leads to the
checks of the step.
-/

namespace LayerCheck

/-- A planned copy, with the layer and the setting in which it is made sequential. -/
structure Sequential where
  setting : Setting
  layer : Layer
  plan : Plan

namespace Sequential

def name (q : Sequential) : String := q.plan.name

/-- The variables of the copy. -/
def scope (q : Sequential) : List Variable := q.plan.implementation.vars

def globals (q : Sequential) : List Variable := q.setting.globals

def refinement (q : Sequential) : Refinement :=
  q.plan.action?.map (.ofAction q.globals q.plan.implementation)

def interference (q : Sequential) : Interference := q.setting.interference q.layer

def collect (q : Sequential) (s : Site) : List Command := q.interference.collect s q.scope

/-- Stores the globals and the outputs. -/
def store (q : Sequential) : List Command :=
  Snapshot.update q.globals ++ q.refinement.saveOutputs

/-- Stores everything as it is at the site. -/
def beginStep (q : Sequential) (s : Site) : List Command := q.store ++ q.collect s

/-- The locals that the added commands use. -/
def locals (q : Sequential) : List Variable :=
  Snapshot.shadows q.globals ++ q.refinement.locals ++ q.interference.locals

/-- The block that checks what a step did to the abstract state, in or out of a yielding loop. -/
def stepChecker (inLoop : Bool) : String :=
  if inLoop then Label.loopRefinement else Label.refinement

/-- Branches off to the checks of the step that ends with the block. -/
def checkStep (inLoop : Bool) (b : Block) : Block :=
  (b.addSuccessor Label.noninterference).addSuccessor (stepChecker inLoop)

end Sequential

end LayerCheck
