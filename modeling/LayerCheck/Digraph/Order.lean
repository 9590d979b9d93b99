import LayerCheck.Digraph.Basic

/-!
# Depth-first order

`Digraph.revPostOrder` lists the nodes that can be reached from the entry, each before the nodes
that a depth-first search finished earlier. The search keeps the nodes that it has not seen yet and
a stack of nodes with the successors that it still has to look at.
-/

namespace LayerCheck.Digraph

variable {n : Nat}

/-- How many steps the stack still takes if no further node is found. -/
def pending : List (Fin n × List (Fin n)) → Nat
  | [] => 0
  | (_, ws) :: rest => ws.length + 1 + pending rest

def search (g : Digraph n) (unseen : List (Fin n)) (stack : List (Fin n × List (Fin n)))
    (finished : List (Fin n)) : List (Fin n) :=
  match stack with
  | [] => finished
  | (v, []) :: rest => g.search unseen rest (v :: finished)
  | (v, w :: ws) :: rest =>
    if w ∈ unseen then
      g.search (unseen.erase w) ((w, g.succ w) :: (v, ws) :: rest) finished
    else g.search unseen ((v, ws) :: rest) finished
termination_by (unseen.length, pending stack)
decreasing_by
  · exact Prod.Lex.right _ (by simp [pending])
  · rename_i hw
    refine Prod.Lex.left _ _ ?_
    have := List.length_pos_of_mem hw
    rw [List.length_erase_of_mem hw]
    omega
  · exact Prod.Lex.right _ (by simp [pending])

def revPostOrder (g : Digraph n) : List (Fin n) :=
  match entry? n with
  | none => []
  | some r => g.search ((List.finRange n).erase r) [(r, g.succ r)] []

def postOrder (g : Digraph n) : List (Fin n) := g.revPostOrder.reverse

end LayerCheck.Digraph
