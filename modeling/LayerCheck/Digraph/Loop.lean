import LayerCheck.Digraph.Dominance

/-!
# Loops

A back edge leads to a node that dominates its source; that node heads a loop. The natural loop of
a back edge is its header with all nodes that reach its source without passing through the header.
-/

namespace LayerCheck.Digraph

variable {n : Nat}

/-- The back edges as pairs of source and header, by source in reverse post order. -/
def backEdges (g : Digraph n) (d : Dominance n) : List (Fin n × Fin n) :=
  d.order.toList.flatMap fun v => ((g.succ v).filter fun w => d.dominates w v).map (v, ·)

/-- Loop headers in reverse post order. -/
def loopHeaders (g : Digraph n) (d : Dominance n) : List (Fin n) :=
  let heads := (g.backEdges d).map Prod.snd
  d.order.toList.filter heads.contains

/-- Adds to `members` whatever reaches a node of the queue; `outside` holds the nodes that are no
members yet. -/
def gather (g : Digraph n) (outside members : List (Fin n)) : List (Fin n) → List (Fin n)
  | [] => members
  | v :: queue =>
    let found := (g.pred v).filter (· ∈ outside)
    g.gather (outside.removeAll found) (members ++ found) (queue ++ found)
termination_by queue => (outside.length, queue.length)
decreasing_by
  cases hf : (g.pred v).filter (· ∈ outside) with
  | nil => exact Prod.Lex.right' _ (List.length_filter_le _ _) (by simp)
  | cons u us =>
    refine Prod.Lex.left _ _ ?_
    have hu : u ∈ (g.pred v).filter (· ∈ outside) := by simp [hf]
    have ho : u ∈ outside := by simpa using (List.mem_filter.1 hu).2
    exact List.length_filter_lt_length_iff_exists.2 ⟨u, ho, by simp⟩

/-- The natural loop of an edge from `source` to `header`: the header first, then the other nodes
as a search against the edges finds them. -/
def naturalLoop (g : Digraph n) (header source : Fin n) : List (Fin n) :=
  if source = header then [header]
  else
    g.gather ((List.finRange n).filter fun v => v ≠ header ∧ v ≠ source) [header, source] [source]

end LayerCheck.Digraph
