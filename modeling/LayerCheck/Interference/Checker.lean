import LayerCheck.Permission.Basic
import LayerCheck.Expr.Subst

/-!
# Interference checkers

A checker restates what is relied on at the yields of a subject. It assumes that the predicates held
before a step of another thread, with the globals of then, and asserts that they hold after it.
Every way through a checker that asserts something ends in a sink, so a checker adds nothing but its
assertions.
-/

namespace LayerCheck

/-- Whose yields are checked. -/
inductive Subject where
  | invariant (i : YieldInvariant)
  /-- The contract: what is required and what is ensured are one yield each. -/
  | procedure (p : Procedure)
  /-- Every yield with the predicates that follow it. -/
  | implementation (i : Implementation)

namespace Subject

def checkerName : Subject → String
  | invariant i => "NoninterferenceChecker_invariant_" ++ i.name
  | procedure p => "NoninterferenceChecker_proc_" ++ p.name
  | implementation i => "NoninterferenceChecker_impl_" ++ i.name

def vars : Subject → List Variable
  | invariant i => i.inputs
  | procedure p => p.inputs ++ p.outputs
  | implementation i => i.vars

end Subject

/-- For every yield of the list the predicates right after it. -/
def Command.yieldPredicates : List Command → List (List Command)
  | [] => []
  | .yield _ :: cs => leadingPredicates cs :: yieldPredicates cs
  | _ :: cs => yieldPredicates cs

def Subject.yields : Subject → List (List Command)
  | invariant i => [i.requires.map Clause.command]
  | procedure p => [p.requires.map Clause.command, p.ensures.map Clause.command]
  | implementation i => i.blocks.flatMap fun b => Command.yieldPredicates b.commands

/-- A procedure with its implementation. -/
structure Checker where
  procedure : Procedure
  implementation : Implementation

namespace Checker

def declarations (c : Checker) : List Declaration :=
  [.procedure c.procedure, .implementation c.implementation]

/-- The formal for the value of a global before the step. -/
def oldGlobal (g : Variable) : Variable := g.rename ("__old_" ++ g.name)

/-- The formals of all checkers: permissions by domain, then old globals. -/
def inputs (p : Permissions) (globals : List Variable) : List Variable :=
  p.domains.values.map Domain.formal ++ globals.map oldGlobal

/-- Reads every global from its formal. -/
def oldGlobals (globals : List Variable) : Subst :=
  .ofList (globals.map fun g => (g.name, (oldGlobal g).expr))

def message : String := "Non-interference check failed"

/-- That the predicate held before the step. -/
def assumeBefore? (old : Subst) (c : Command) : Option Command :=
  c.predicate?.map fun e => .assume (e.substOld old old)

/-- That the predicate holds after the step. An assumption is not checked. -/
def assertAfter? (old : Subst) : Command → Option Command
  | .assert e _ => some (.assert (e.substOld ∅ old) (some message))
  | _ => none

/-- The checks of one yield, where the thread that yields holds permissions disjoint from `vars`. -/
def commands (p : Permissions) (globals vars : List Variable) (predicates : List Command) :
    List Command :=
  let old := oldGlobals globals
  predicates.filterMap (assumeBefore? old) ++
    (p.domains.values.filterMap fun d => d.disjointWith? d.formal vars).map .assume ++
    predicates.filterMap (assertAfter? old)

def blocks (p : Permissions) (globals : List Variable) (s : Subject) : List Block :=
  let yields := s.yields.filter (!·.isEmpty)
  let sinks := yields.zipIdx.map fun (predicates, i) =>
    Block.sink ("L" ++ toString i) (commands p globals s.vars predicates)
  let exit : Block := { label := "exit" }
  { label := "enter", transfer := .goto ((exit :: sinks).map Block.label) } :: exit :: sinks

def ofSubject (p : Permissions) (globals : List Variable) (s : Subject) : Checker :=
  let name := s.checkerName
  let inputs := inputs p globals
  { procedure := { name, inputs, attributes := [inlineAttribute] }
    implementation :=
      { name, procedure := name, inputs
        locals := s.vars
        blocks := blocks p globals s
        attributes := [inlineAttribute] } }

end Checker

end LayerCheck
