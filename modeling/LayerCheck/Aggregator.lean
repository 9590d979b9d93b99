import LayerCheck.Expr.Subst
import LayerCheck.Program.Basic

/-!
# Aggregators

A parallel call becomes a call of one procedure whose contract joins the contracts of the callees.
The formals of each callee are told apart by its position among the calls. The aggregator is named
after the callees, so parallel calls of the same procedures share one.
-/

namespace LayerCheck

namespace Aggregator

/-- The formal that stands for the formal `v` of the callee at position `k`. -/
def formal (k : Nat) (v : Variable) : Variable :=
  v.rename ("__p" ++ toString k ++ "_" ++ v.name)

def formals (k : Nat) (vars : List Variable) : List Variable := vars.map (formal k)

/-- Reads every formal of the callee at position `k` from its formal of the aggregator. -/
def subst (k : Nat) (callee : Procedure) : Subst :=
  .ofList ((callee.inputs ++ callee.outputs).map fun v => (v.name, (formal k v).expr))

/-- What the callee at position `k` demands and grants, over the formals of the aggregator. -/
def clauses (k : Nat) (callee : Procedure) (cs : List Clause) : List Clause :=
  cs.map (Clause.map (·.subst (subst k callee)))

/-- The aggregator of callees with their positions; it may modify all globals. -/
def ofCallees (name : String) (globals : List Variable) (callees : List (Procedure × Nat)) :
    Procedure :=
  { name
    inputs := callees.flatMap fun (q, k) => formals k q.inputs
    outputs := callees.flatMap fun (q, k) => formals k q.outputs
    requires := callees.flatMap fun (q, k) => clauses k q q.requires
    modifies := globals.map Variable.name
    ensures := callees.flatMap fun (q, k) => clauses k q q.ensures }

end Aggregator

namespace ParCall

def aggregatorName (p : ParCall) : String :=
  p.calls.foldl (fun name c => name ++ "_" ++ c.callee) "ParallelCall"

/-- The callees with their positions. A call of something unknown keeps its position to itself. -/
def callees (procedures : Table String Procedure) (p : ParCall) : List (Procedure × Nat) :=
  p.calls.zipIdx.filterMap fun (c, k) => (procedures.get? c.callee).map (·, k)

def aggregator (procedures : Table String Procedure) (globals : List Variable) (p : ParCall) :
    Procedure :=
  Aggregator.ofCallees p.aggregatorName globals (p.callees procedures)

/-- The call of the aggregator that takes the place of the parallel call. -/
def aggregatorCall (p : ParCall) : Call :=
  { id := p.id
    callee := p.aggregatorName
    ins := p.ins
    outs := p.outs
    attributes := p.attributes }

end ParCall

/-- Declares the aggregators of parallel calls. Of calls with one name the first decides. -/
def Aggregator.declare (procedures : Table String Procedure) (globals : List Variable)
    (t : Table String Procedure) (calls : List ParCall) : Table String Procedure :=
  calls.foldl (fun t p => t.insertIfNew p.aggregatorName (p.aggregator procedures globals)) t

end LayerCheck
