/-!
# Finite directed graphs

A graph on the nodes `0`, …, `n - 1`, given by the list of successors of every node. Node `0` is
the entry.
-/

namespace LayerCheck

/-- The nodes that have `v` as a successor, for every `v`, in ascending order. -/
def predecessorTable {n : Nat} (succs : Vector (List (Fin n)) n) : Vector (List (Fin n)) n :=
  Vector.ofFn fun v => (List.finRange n).filter fun u => (succs.get u).contains v

/-- A graph keeps its predecessor lists beside the successor lists that determine them. -/
structure Digraph (n : Nat) where
  succs : Vector (List (Fin n)) n
  preds : Vector (List (Fin n)) n := predecessorTable succs
  preds_eq : preds = predecessorTable succs := by rfl

namespace Digraph

variable {n : Nat}

def succ (g : Digraph n) (v : Fin n) : List (Fin n) := g.succs.get v

def pred (g : Digraph n) (v : Fin n) : List (Fin n) := g.preds.get v

def entry? (n : Nat) : Option (Fin n) :=
  if h : 0 < n then some ⟨0, h⟩ else none

theorem pred_eq (g : Digraph n) (v : Fin n) :
    g.pred v = (List.finRange n).filter fun u => (g.succ u).contains v := by
  rw [pred, g.preds_eq, predecessorTable]
  exact Vector.getElem_ofFn v.isLt

theorem mem_pred {g : Digraph n} {u v : Fin n} : u ∈ g.pred v ↔ v ∈ g.succ u := by
  simp [pred_eq]

theorem pred_nodup (g : Digraph n) (v : Fin n) : (g.pred v).Nodup := by
  rw [pred_eq]
  exact (List.nodup_finRange n).filter _

end Digraph

end LayerCheck
