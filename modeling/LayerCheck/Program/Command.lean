import LayerCheck.Expr.Basic

/-!
# Commands

The commands of basic blocks. A yield and a parallel call are the points at which other threads may
run; `Command.isPreemption` tells them from the rest.
-/

namespace LayerCheck

/-- Identifies a call, yield or parallel call, also across copies of an implementation. -/
abbrev CommandId := Nat

/-- The identity that all generated commands share. -/
def CommandId.generated : CommandId := 4294967295

structure Call where
  id : CommandId
  callee : String
  ins : List Expr := []
  outs : List String := []
  attributes : List String := []
deriving Repr, Inhabited

namespace Call

/-- The attribute of a call that performs the atomic action of its caller. -/
def refinesAttribute : String := "refines"

def isRefining (c : Call) : Bool := c.attributes.contains refinesAttribute

end Call

/-- Several calls made at once, each by a thread of its own. -/
structure ParCall where
  id : CommandId
  calls : List Call
  attributes : List String := []
deriving Repr, Inhabited

namespace ParCall

def isRefining (p : ParCall) : Bool := p.calls.any Call.isRefining

def ins (p : ParCall) : List Expr := p.calls.flatMap Call.ins

def outs (p : ParCall) : List String := p.calls.flatMap Call.outs

end ParCall

inductive Command where
  /-- Assigns all values at once. -/
  | assign (targets : List String) (values : List Expr)
  | havoc (vars : List String)
  | assume (condition : Expr)
  | assert (condition : Expr) (message? : Option String := none)
  | call (c : Call)
  | yield (id : CommandId)
  | par (p : ParCall)
deriving Repr, Inhabited

namespace Command

/-- Ends a path: what was asserted before has been checked, and nothing follows. -/
def stop : Command := .assume (.bool false)

def isStop : Command → Bool
  | .assume e => e.isFalse
  | _ => false

/-- The condition of an assumption or assertion. -/
def predicate? : Command → Option Expr
  | .assume e => some e
  | .assert e _ => some e
  | _ => none

def isPredicate (c : Command) : Bool := c.predicate?.isSome

def isPreemption : Command → Bool
  | .yield _ => true
  | .par _ => true
  | _ => false

/-- The assumptions and assertions at the start of the list. -/
def leadingPredicates (cs : List Command) : List Command := cs.takeWhile isPredicate

/-- Assigns all values at once; no command at all if there is nothing to assign. -/
def assignAll (targets : List String) (values : List Expr) : List Command :=
  if targets.isEmpty then [] else [.assign targets values]

/-- Gives the variables arbitrary values; no command at all if there are none. -/
def havocAll (vars : List String) : List Command :=
  if vars.isEmpty then [] else [.havoc vars]

end Command

end LayerCheck
