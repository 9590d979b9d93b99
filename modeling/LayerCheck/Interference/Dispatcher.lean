import LayerCheck.Interference.Checker

/-!
# The dispatcher

One procedure for each layer that runs any one of the checkers, or returns at once if there is none.
-/

namespace LayerCheck.Dispatcher

def name (l : Layer) : String := "NoninterferenceDispatcher_" ++ toString l

def procedure (name : String) (inputs : List Variable) : Procedure :=
  { name, inputs, attributes := [inlineAttribute] }

def branch (args : List Expr) (i : Nat) (checker : String) : Block :=
  { label := "L_" ++ toString i
    commands := [.call { id := .generated, callee := checker, ins := args }] }

def implementation (p : Procedure) (checkers : List String) : Implementation :=
  let args := p.inputs.map Variable.expr
  let branches := checkers.zipIdx.map fun (c, i) => branch args i c
  let enter : Block :=
    { label := "enter"
      transfer := if branches.isEmpty then .ret else .goto (branches.map Block.label) }
  { name := p.name
    procedure := p.name
    inputs := p.inputs
    blocks := enter :: branches
    attributes := [inlineAttribute] }

end LayerCheck.Dispatcher
