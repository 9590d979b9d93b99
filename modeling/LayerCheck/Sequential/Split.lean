import LayerCheck.Expr.Fresh
import LayerCheck.Program.Basic

/-!
# Splitting blocks at preemption points

Every block is cut in front of each of its yields and parallel calls, so that these stand at the
head of blocks of their own. The pieces of a block are numbered from its end; a number whose label
is taken is left out.
-/

namespace LayerCheck

/-- A block that is being cut, from its last command on. -/
structure Cut where
  /-- What has been seen since the last cut. -/
  block : Block
  pieces : List Block := []
  /-- The number of the next piece. -/
  next : Nat := 0
  taken : List String

namespace Cut

def pieceLabel (label : String) (n : Nat) : String := label ++ "_" ++ toString n

/-- Puts a command in front; a preemption point is cut off with all that follows it. -/
def push (c : Command) (s : Cut) : Cut :=
  let commands := c :: s.block.commands
  if c.isPreemption then
    let n := Fresh.number (pieceLabel s.block.label) s.next s.taken
    let label := pieceLabel s.block.label n
    { block := { label := s.block.label, transfer := .goto [label] }
      pieces := s.pieces ++ [{ label, commands, transfer := s.block.transfer }]
      next := n + 1
      taken := label :: s.taken }
  else { s with block := { s.block with commands } }

end Cut

namespace Block

def cut (taken : List String) (b : Block) : Cut :=
  b.commands.foldr Cut.push { block := { b with commands := [] }, taken }

/-- The blocks without what was cut off, and all pieces. -/
def cutAll (taken : List String) : List Block → List Block × List Block
  | [] => ([], [])
  | b :: bs =>
    let s := b.cut taken
    let (blocks, pieces) := cutAll s.taken bs
    (s.block :: blocks, s.pieces ++ pieces)

end Block

/-- Cuts every block; the pieces come last. Their labels are not among `others` either. -/
def Implementation.split (i : Implementation) (others : List String) : Implementation :=
  let (blocks, pieces) := Block.cutAll (i.labels ++ others) i.blocks
  { i with blocks := blocks ++ pieces }

end LayerCheck
