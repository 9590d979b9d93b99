import LayerCheck.PendingAsync
import LayerCheck.Sequential.Body

/-!
# Instrumenting a layer

`Setting.transform` makes every copy of an implementation sequential, in such a way that the checks
of the new program establish what the layer claims: that what is relied on at yields is not
interfered with, and that actions are refined. Beside the program it gives the declarations that
the program then needs.
-/

namespace LayerCheck

/-- What has been done at a layer, by name. -/
structure LayerSummary where
  layer : Layer
  /-- The copies that have been made sequential. -/
  transformed : List String
  /-- The copies that are atomic at the layer. They only got disjointness assumptions. -/
  skipped : List String
  interferenceCheckers : List String
  aggregators : List String
  pendingCheckers : List String
  dispatcher : String
deriving DecidableEq, Repr, Inhabited

structure LayerOutput where
  declarations : List Declaration
  summary : LayerSummary

/-- The names of the procedures among the declarations. -/
def Declaration.procedureNames (ds : List Declaration) : List String :=
  (ds.filterMap Declaration.procedure?).map Procedure.name

namespace Setting

variable (s : Setting) (l : Layer)

def checker (subject : Subject) : Checker := .ofSubject s.permissions s.globals subject

/-- What is checked for a copy that the program has: its yields and, unless it is atomic, the contract
of its procedure. -/
def subjectsIn (p : Program) (plan : Plan) : List Subject :=
  match plan.copy? p with
  | none => []
  | some plan =>
    .implementation plan.implementation ::
      if plan.isAtomicAt l then []
      else ((plan.contract? p).map fun plan => .procedure plan.procedure).toList

/-- The checkers of the invariants and copies of the layer; none if interference is trusted. -/
def interferenceCheckersIn (p : Program) (plans : List Plan) : List Declaration :=
  if s.trusted then []
  else ((s.facts.activeInvariants l).map Subject.invariant ++
      plans.flatMap (subjectsIn l p)).flatMap fun subject => (s.checker subject).declarations

/-- The procedure that runs all checks, with its implementation. -/
def dispatcherDeclarations (checkers : List String) : List Declaration :=
  let d := s.dispatcher l
  [.procedure d, .implementation (Dispatcher.implementation d checkers)]

/-- The copy at the layer, with the commands that it starts with. One that is atomic has no steps to
be checked. -/
def transformCopyFrom (plan : Plan) (entry : List Command) (i : Implementation) : Implementation :=
  if plan.isAtomicAt l then i.withDisjointness s.permissions s.copies s.yielding
  else
    Sequential.implementationFrom
      { setting := s, layer := l, plan := { plan with implementation := i } } entry

@[simp] theorem name_transformCopyFrom (plan : Plan) (entry : List Command) (i : Implementation) :
    (s.transformCopyFrom l plan entry i).name = i.name := by
  rw [transformCopyFrom]
  split
  · exact Implementation.name_withDisjointness ..
  · rfl

end Setting

/-- How far the copies of a layer have been changed. -/
structure Progress where
  implementations : Table String Implementation
  implementations_keyed : implementations.KeyedBy Implementation.name
  /-- The commands that the copies which are left start with, by name. -/
  entries : Table String (List Command)
  aggregators : Table String Procedure := ∅
  transformed : List String := []
  skipped : List String := []

namespace Setting

variable (s : Setting) (l : Layer)

/-- Changes the next copy, if it is there. -/
def transformNext (contracts : Table String Procedure) (a : Progress) (plan : Plan) : Progress :=
  match a.implementations.get? plan.name with
  | none => a
  | some i =>
    let changed := s.transformCopyFrom l plan ((a.entries.get? plan.name).getD [])
    let a := { a with
      implementations := a.implementations.modify plan.name changed
      implementations_keyed := a.implementations_keyed.modify _ (s.name_transformCopyFrom l plan _) }
    if plan.isAtomicAt l then { a with skipped := a.skipped ++ [i.name] }
    else
      { a with
        entries := a.entries.erase plan.name
        aggregators := Aggregator.declare contracts s.globals a.aggregators
          (Sequential.parCalls
            { setting := s, layer := l, plan := { plan with implementation := i } })
        transformed := a.transformed ++ [i.name] }

/-- No copy has been changed yet. -/
def start (p : Program) (plans : List Plan) : Progress :=
  { implementations := p.implementations
    implementations_keyed := p.implementations_keyed
    entries := s.entries l p plans }

/-- Changes all copies of the program. -/
def transformCopies (p : Program) (plans : List Plan) (contracts : Table String Procedure) :
    Progress :=
  plans.foldl (s.transformNext l contracts) (s.start l p plans)

def outputOf (checkers : List Declaration) (a : Progress) : LayerOutput :=
  let checkerNames := Declaration.procedureNames checkers
  let pending := PendingAsync.declarations s l
  { declarations := checkers ++ a.aggregators.values.map Declaration.procedure ++ pending ++
      s.dispatcherDeclarations l checkerNames
    summary := {
      layer := l
      transformed := a.transformed
      skipped := a.skipped
      interferenceCheckers := checkerNames
      aggregators := a.aggregators.keys
      pendingCheckers := Declaration.procedureNames pending
      dispatcher := Dispatcher.name l } }

/-- Instruments the program for the layer, or says why it is rejected. -/
def transform (p : Program) : Except LayerError (Program × LayerOutput) := do
  let plans ← s.plan l p
  let contracts := s.contractsIn l p plans
  let a := s.transformCopies l p plans contracts
  let program := { p with
    procedures := contracts
    implementations := a.implementations
    implementations_keyed := a.implementations_keyed }
  return (program, s.outputOf l (s.interferenceCheckersIn l p plans) a)

end Setting

end LayerCheck
