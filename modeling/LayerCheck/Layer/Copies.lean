import LayerCheck.Layer.Facts

/-!
# Copies of implementations

Every layer works on copies of the implementations. Facts are recorded for the sources; this table
leads from a copy and its blocks back to where they come from.
-/

namespace LayerCheck

structure Origin where
  implementation : String
  procedure : String
deriving DecidableEq, Repr, Inhabited

structure Copies where
  implementations : Table String Origin := ∅
  blocks : Table BlockRef BlockRef := ∅
deriving Inhabited

namespace Copies

def addBlock (c : Copies) (copy source : BlockRef) : Copies :=
  { c with blocks := c.blocks.insert copy source }

/-- Records a copy whose blocks have the labels that they have in the source. -/
def add (c : Copies) (name : String) (origin : Origin) (labels : List String) : Copies :=
  let c := labels.foldl (fun c l => c.addBlock ⟨name, l⟩ ⟨origin.implementation, l⟩) c
  { c with implementations := c.implementations.insert name origin }

def source? (c : Copies) (b : BlockRef) : Option BlockRef := c.blocks.get? b

/-- The source of a block, or the block itself if it is no copy. -/
def resolve (c : Copies) (b : BlockRef) : BlockRef := (c.source? b).getD b

/-- The yielding loop that the block heads, if its source heads one. -/
def yieldingLoop? (c : Copies) (f : Facts) (b : BlockRef) : Option YieldingLoop :=
  (c.source? b).bind f.loops.get?

/-- The yielding loop that the block heads at the layer. -/
def activeLoop? (c : Copies) (f : Facts) (l : Layer) (b : BlockRef) : Option YieldingLoop :=
  (c.yieldingLoop? f b).filter (l ∈ ·.layers)

end Copies

end LayerCheck
