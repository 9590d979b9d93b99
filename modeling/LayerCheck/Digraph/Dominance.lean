import LayerCheck.Digraph.Order

/-!
# Dominators

A node dominates another if every path from the entry to the other passes through it. The immediate
dominators are found by rounds over the reverse post order, until a round changes nothing. In the
rounds a node stands for its position in that order, so that a dominator has a smaller position
than what it dominates and the entry has position `0`. A walk through the tree of dominators then
numbers when it comes to each position and when it leaves it: what a position dominates is entered
after it and left before it.
-/

namespace LayerCheck

/-- The dominator found so far for every position; nothing yet for some. -/
abbrev DomMap := Array (Option Nat)

namespace DomMap

def dom? (m : DomMap) (i : Nat) : Option Nat := m.getD i none

/-- The parent of a position in the tree of dominators: its dominator, if that comes earlier. -/
def parent? (m : DomMap) (i : Nat) : Option Nat := (m.dom? i).filter (· < i)

theorem parent?_lt {m : DomMap} {i j : Nat} (h : m.parent? i = some j) : j < i := by
  simpa using (Option.filter_eq_some_iff.1 h).2

/-- Climbs from both positions to the first common one: always from the later of the two. -/
def meet (m : DomMap) (i j : Nat) : Nat :=
  if i = j then i
  else if j < i then
    match _hp : m.parent? i with
    | some p => m.meet p j
    | none => j
  else
    match _hp : m.parent? j with
    | some p => m.meet i p
    | none => i
termination_by i + j
decreasing_by
  · have := parent?_lt _hp; omega
  · have := parent?_lt _hp; omega

/-- The dominator of a position, given the positions of its predecessors. -/
def candidate? (m : DomMap) (preds : List Nat) : Option Nat :=
  match preds.filter fun p => (m.dom? p).isSome with
  | [] => none
  | p :: ps => some (ps.foldl (fun d q => m.meet q d) p)

/-- Looks at one position again. -/
def refine (preds : Nat → List Nat) (m : DomMap) (i : Nat) : DomMap :=
  match m.candidate? (preds i) with
  | none => m
  | some d => m.setIfInBounds i (some d)

/-- Looks at every position but the first, in order. -/
def round (preds : Nat → List Nat) (m : DomMap) : DomMap :=
  (List.range' 1 (m.size - 1)).foldl (refine preds) m

/-- Rounds until one changes nothing, at most `limit` of them. -/
def settle (preds : Nat → List Nat) : Nat → DomMap → DomMap
  | 0, m => m
  | limit + 1, m =>
    let m' := round preds m
    if m' = m then m else settle preds limit m'

/-- Only the entry is known at the start. -/
def start (size : Nat) : DomMap := (Array.replicate size none).setIfInBounds 0 (some 0)

/-- A round that changes something moves a dominator to an earlier position, or finds the first
dominator of a position; so `size * size + 1` rounds are enough. -/
def ofPredecessors (size : Nat) (preds : Nat → List Nat) : DomMap :=
  settle preds (size * size + 1) (start size)

/-- The positions with the parent `i`, in order. -/
def children (m : DomMap) (i : Nat) : List Nat :=
  (List.range m.size).filter fun j => m.parent? j = some i

theorem lt_of_mem_children {m : DomMap} {i j : Nat} (h : j ∈ m.children i) :
    i < j ∧ j < m.size := by
  obtain ⟨hj, hp⟩ := List.mem_filter.1 h
  exact ⟨parent?_lt (of_decide_eq_true hp), List.mem_range.1 hj⟩

end DomMap

/-- A walk through the tree of dominators: the number of its next event, and the numbers of coming
to and leaving the positions that are done. -/
structure DomWalk where
  clock : Nat := 0
  spans : Array (Option (Nat × Nat))

namespace DomMap

/-- Walks through all that is below a position. -/
def walk (m : DomMap) (i : Nat) (s : DomWalk) : DomWalk :=
  let below := (m.children i).attach.foldl (fun s j => m.walk j.1 s)
    { s with clock := s.clock + 1 }
  { clock := below.clock + 1
    spans := below.spans.setIfInBounds i (some (s.clock, below.clock)) }
termination_by m.size - i
decreasing_by
  have := lt_of_mem_children j.2
  omega

/-- The span of every position that is below the entry. -/
def spans (m : DomMap) : Array (Option (Nat × Nat)) :=
  (m.walk 0 { spans := Array.replicate m.size none }).spans

end DomMap

/-- The reverse post order of a graph with the dominators of its positions. -/
structure Dominance (n : Nat) where
  order : Array (Fin n)
  position : Vector (Option Nat) n
  doms : DomMap
  spans : Array (Option (Nat × Nat))

namespace Dominance

variable {n : Nat}

/-- The place of every node in the order. -/
def positions (order : List (Fin n)) : Vector (Option Nat) n :=
  Vector.ofFn fun v => order.idxOf? v

/-- The positions of the predecessors, for every position. -/
def predPositions (g : Digraph n) (order : List (Fin n)) : Array (List Nat) :=
  let position := positions order
  order.toArray.map fun v => (g.pred v).filterMap position.get

def ofOrder (g : Digraph n) (order : List (Fin n)) : Dominance n :=
  let preds := predPositions g order
  let doms := DomMap.ofPredecessors order.length fun i => preds.getD i []
  { order := order.toArray
    position := positions order
    doms
    spans := doms.spans }

def reachable (d : Dominance n) (v : Fin n) : Bool := (d.position.get v).isSome

/-- The immediate dominator of a reachable node other than the entry. -/
def idom? (d : Dominance n) (v : Fin n) : Option (Fin n) := do
  let i ← d.position.get v
  let j ← d.doms.parent? i
  d.order[j]?

/-- When a reachable node is entered and left. -/
def span? (d : Dominance n) (v : Fin n) : Option (Nat × Nat) :=
  (d.position.get v).bind fun i => d.spans.getD i none

/-- Every node dominates itself; apart from that, only reachable nodes are related. -/
def dominates (d : Dominance n) (u v : Fin n) : Bool :=
  u = v ||
    match d.span? u, d.span? v with
    | some s, some t => s.1 ≤ t.1 && t.2 ≤ s.2
    | _, _ => false

end Dominance

def Digraph.dominance {n : Nat} (g : Digraph n) : Dominance n := .ofOrder g g.revPostOrder

end LayerCheck
