import LayerCheck.Flow.Basic

/-!
# Unreachable blocks

Leaving out the blocks that no path from the entry reaches.
-/

namespace LayerCheck.Implementation

/-- Keeps the reachable blocks, in their order. -/
def prune (i : Implementation) : Implementation :=
  let g := i.flow
  { i with blocks := i.blocks.filter fun b => g.reachable b.label }

/-- The labels of the blocks that pruning leaves out. -/
def unreachableLabels (i : Implementation) : List String :=
  let g := i.flow
  i.labels.filter fun l => !g.reachable l

end LayerCheck.Implementation
