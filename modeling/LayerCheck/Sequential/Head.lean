import LayerCheck.Aggregator
import LayerCheck.Sequential.Step

/-!
# Yields and parallel calls

At a yield other threads may change the globals to anything that fits the permissions at hand and
the predicates that stand after the yield. A parallel call is a call of its aggregator. In both
cases the step that ends is accounted for, unless it belongs to a yielding loop, and a new one
begins.
-/

namespace LayerCheck.Sequential

/-- The predicates are checked before other threads run and assumed afterwards. -/
def afterYield (q : Sequential) (inLoop : Bool) (id : CommandId) (rest : List Command) :
    List Command :=
  let predicates := Command.leadingPredicates rest
  (if inLoop then [] else q.refinement.endStep) ++ predicates ++
    q.setting.havocGlobals ++ q.refinement.assumeGate ++
    q.setting.permissions.assumeDisjoint (.command id) q.scope q.globals ++
    q.beginStep (.command id) ++
    (predicates.filterMap Command.predicate?).map .assume ++
    rest.drop predicates.length

def afterParCall (q : Sequential) (inLoop : Bool) (p : ParCall) (rest : List Command) :
    List Command :=
  (if inLoop then []
    else if p.isRefining then q.refinement.endMarkedStep else q.refinement.endStep) ++
    .call p.aggregatorCall :: q.refinement.assumeGate ++ q.beginStep (.command p.id) ++ rest

/-- Takes the yield or parallel call out of the head of a block. -/
def replaceHead (q : Sequential) (inLoops : List String) (b : Block) : Block :=
  let inLoop := inLoops.contains b.label
  match b.commands with
  | .yield id :: rest => { b with commands := q.afterYield inLoop id rest }
  | .par p :: rest => { b with commands := q.afterParCall inLoop p rest }
  | _ => b

end LayerCheck.Sequential
