import LayerCheck.Digraph.Reducible
import LayerCheck.Program.Basic

/-!
# Flow graphs

The control flow of a list of blocks, as a graph on the positions of the blocks. Blocks are named by
their labels: a label stands for the last block that has it. Targets that name no block are left
out. The graph describes the blocks as they are; after a change it has to be built anew.
-/

namespace LayerCheck

structure FlowGraph where
  size : Nat
  labels : Vector String size
  graph : Digraph size
  dominance : Dominance size := graph.dominance
  dominance_eq : dominance = graph.dominance := by rfl

namespace FlowGraph

/-- The last position of a label. -/
def lastWithLabel? {n : Nat} (labels : Vector String n) (label : String) : Option (Fin n) :=
  (List.finRange n).reverse.find? fun v => labels.get v = label

def ofBlocks (blocks : List Block) : FlowGraph :=
  let nodes : Vector Block blocks.length := ⟨blocks.toArray, by simp⟩
  let labels := nodes.map Block.label
  { size := blocks.length
    labels
    graph :=
      { succs := nodes.map fun b => (b.successors.filterMap (lastWithLabel? labels)).eraseDups } }

def node? (g : FlowGraph) (label : String) : Option (Fin g.size) := lastWithLabel? g.labels label

def label (g : FlowGraph) (v : Fin g.size) : String := g.labels.get v

def entry? (g : FlowGraph) : Option String := (Digraph.entry? g.size).map g.label

def contains (g : FlowGraph) (label : String) : Bool := (g.node? label).isSome

/-- The labels of the nodes that `f` gives for a label; none if the label names no block. -/
def labelsFrom (g : FlowGraph) (label : String) (f : Fin g.size → List (Fin g.size)) :
    List String :=
  ((g.node? label).map f).getD [] |>.map g.label

def successors (g : FlowGraph) (label : String) : List String := g.labelsFrom label g.graph.succ

def predecessors (g : FlowGraph) (label : String) : List String := g.labelsFrom label g.graph.pred

def revPostOrder (g : FlowGraph) : List String := g.dominance.order.toList.map g.label

def postOrder (g : FlowGraph) : List String := g.revPostOrder.reverse

def reachable (g : FlowGraph) (label : String) : Bool := (g.node? label).any g.dominance.reachable

def idom? (g : FlowGraph) (label : String) : Option String :=
  ((g.node? label).bind g.dominance.idom?).map g.label

def dominates (g : FlowGraph) (a b : String) : Bool :=
  match g.node? a, g.node? b with
  | some u, some v => g.dominance.dominates u v
  | _, _ => false

/-! ## Loops -/

def backEdges (g : FlowGraph) : List (String × String) :=
  (g.graph.backEdges g.dominance).map fun e => (g.label e.1, g.label e.2)

/-- The sources of the back edges into a header. -/
def backEdgeSources (g : FlowGraph) (header : String) : List String :=
  g.labelsFrom header fun h =>
    ((g.graph.backEdges g.dominance).filter fun e => e.2 = h).map Prod.fst

def loopHeaders (g : FlowGraph) : List String :=
  ((g.graph.loopHeaders g.dominance).map g.label).eraseDups

def naturalLoop (g : FlowGraph) (header source : String) : List String :=
  match g.node? header, g.node? source with
  | some h, some s => ((g.graph.naturalLoop h s).map g.label).eraseDups
  | _, _ => []

/-- The blocks in the natural loops of all back edges into the headers. -/
def blocksInLoops (g : FlowGraph) (headers : List String) : List String :=
  let edges := g.backEdges
  (headers.flatMap fun h =>
    (edges.filter fun e => e.2 = h).flatMap fun e => g.naturalLoop h e.1).eraseDups

def isReducible (g : FlowGraph) : Bool := g.graph.isReducible g.dominance

end FlowGraph

def Implementation.flow (i : Implementation) : FlowGraph := .ofBlocks i.blocks

end LayerCheck
