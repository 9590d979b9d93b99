import LayerCheck.Digraph.Loop

/-!
# Reducible graphs

A graph is reducible if its reachable part has no cycle left once the back edges are taken out. The
test takes nodes away that have no edge coming in any more, and counts how many go.
-/

namespace LayerCheck.Digraph

variable {n : Nat}

/-- Edges that still come in at each node, the nodes that have none, and how many are gone. -/
structure Peeling (n : Nat) where
  counts : Vector Nat n
  ready : List (Fin n)
  gone : Nat := 0

namespace Peeling

/-- Takes away an edge into `w`; `w` becomes ready with its last one. -/
def dropEdge (s : Peeling n) (w : Fin n) : Peeling n :=
  let count := s.counts.get w - 1
  { s with
    counts := s.counts.set w count w.isLt
    ready := if count = 0 then w :: s.ready else s.ready }

/-- Takes away one ready node and the edges that leave it. -/
def step (forward : Fin n → List (Fin n)) (s : Peeling n) : Peeling n :=
  match s.ready with
  | [] => s
  | v :: rest => (forward v).foldl dropEdge { s with ready := rest, gone := s.gone + 1 }

def run (forward : Fin n → List (Fin n)) : Nat → Peeling n → Peeling n
  | 0, s => s
  | steps + 1, s => run forward steps (s.step forward)

end Peeling

/-- The successors by edges that are no back edges. -/
def forward (g : Digraph n) (d : Dominance n) (v : Fin n) : List (Fin n) :=
  (g.succ v).filter fun w => !d.dominates w v

def isReducible (g : Digraph n) (d : Dominance n) : Bool :=
  let nodes := (List.finRange n).filter d.reachable
  let targets := nodes.flatMap (g.forward d)
  let counts := Vector.ofFn fun w => targets.count w
  let start : Peeling n := { counts, ready := nodes.filter fun v => counts.get v = 0 }
  (start.run (g.forward d) n).gone = nodes.length

end LayerCheck.Digraph
