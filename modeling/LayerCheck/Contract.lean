import LayerCheck.Plan

/-!
# Contracts at a layer

The invariants that a yielding procedure names for its entry and its exit hold at the layer at which
they are checked. There they join the contract of the procedure, and the body of a copy starts from
what the contract then requires.
-/

namespace LayerCheck

/-- The contract with further clauses. -/
def Procedure.strengthen (q : Procedure) (requires ensures : List Clause) : Procedure :=
  { q with requires := q.requires ++ requires, ensures := q.ensures ++ ensures }

namespace Plan

/-- The plan with the copy that the program has under its name, if there is one. -/
def copy? (plan : Plan) (p : Program) : Option Plan :=
  (p.implementations.get? plan.name).map fun i => { plan with implementation := i }

/-- The plan with the procedure that the program has for its copy, if there is one. -/
def contract? (plan : Plan) (p : Program) : Option Plan :=
  (p.procedures.get? plan.implementation.procedure).map fun q => { plan with procedure := q }

end Plan

/-- The site at which a copy is entered. -/
def Plan.entrySite (p : Plan) : Site := .entry p.origin.implementation

/-- Reads the inputs of the procedure from those of the implementation. -/
def Plan.inputSubst (p : Plan) : Subst :=
  .ofFormals p.procedure.inputs (p.implementation.inputs.map Variable.expr)

namespace Setting

/-- The invariants that hold on entry, with their arguments read in the old state: on entry that is
the current one. -/
def entryClauses (s : Setting) (l : Layer) (p : Plan) : List Clause :=
  s.activeClauses l .old p.yielding.requires

/-- Arbitrary globals that fit what the inputs carry and what the contract requires. -/
def preconditions (s : Setting) (l : Layer) (p : Plan) : List Command :=
  s.havocGlobals ++
    s.permissions.assumeDisjoint p.entrySite p.implementation.inputs s.globals ++
    (p.procedure.requires ++ s.entryClauses l p).map fun c =>
      .assume (c.condition.subst p.inputSubst)

/-- The preconditions of the copies that the program has, by name. -/
def entries (s : Setting) (l : Layer) (p : Program) (plans : List Plan) :
    Table String (List Command) :=
  .ofList (plans.filterMap fun plan =>
    ((plan.copy? p).bind (·.contract? p)).map fun found => (plan.name, s.preconditions l found))

/-- Adds the invariants of a copy to the contract of its procedure. -/
def strengthen (s : Setting) (l : Layer) (t : Table String Procedure) (p : Plan) :
    Table String Procedure :=
  t.modify p.implementation.procedure fun q =>
    q.strengthen (s.activeClauses l id p.yielding.requires)
      (s.activeClauses l id p.yielding.ensures)

/-- The contracts of the layer. -/
def contracts (s : Setting) (l : Layer) (plans : List Plan) (t : Table String Procedure) :
    Table String Procedure :=
  plans.foldl (s.strengthen l) t

/-- The contracts of the program at the layer. A copy that it lacks adds nothing. -/
def contractsIn (s : Setting) (l : Layer) (p : Program) (plans : List Plan) :
    Table String Procedure :=
  s.contracts l (plans.filterMap (·.copy? p)) p.procedures

end Setting

end LayerCheck
