import LayerCheck.Program.Command

/-!
# Basic blocks

A block runs its commands and then returns or jumps to any of its targets. A jump without targets
ends every path.
-/

namespace LayerCheck

inductive Transfer where
  | ret
  | goto (targets : List String)
deriving DecidableEq, Repr, Inhabited

namespace Transfer

def targets : Transfer → List String
  | .ret => []
  | .goto ts => ts

def isReturn : Transfer → Bool
  | .ret => true
  | .goto _ => false

/-- Adds a target that is not there yet. A return turns into a jump to the target. -/
def add (t : Transfer) (target : String) : Transfer :=
  match t with
  | .ret => .goto [target]
  | .goto ts => if target ∈ ts then .goto ts else .goto (ts ++ [target])

end Transfer

structure Block where
  label : String
  commands : List Command := []
  transfer : Transfer := .ret
deriving Repr, Inhabited

namespace Block

def successors (b : Block) : List String := b.transfer.targets

def addSuccessor (b : Block) (target : String) : Block :=
  { b with transfer := b.transfer.add target }

/-- A block that only checks: it runs the commands and then stops the path. -/
def sink (label : String) (commands : List Command) : Block :=
  { label, commands := commands ++ [.stop] }

def isSink (b : Block) : Bool := b.commands.getLast?.any Command.isStop

def head? (b : Block) : Option Command := b.commands.head?

end Block

end LayerCheck
