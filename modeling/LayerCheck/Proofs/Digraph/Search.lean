import LayerCheck.Digraph.Dominance
import Mathlib.Data.List.Nodup
import Mathlib.Logic.Relation
import Mathlib.Tactic.ByContra

/-!
# The depth-first search finds what can be reached

The search keeps a list of unseen nodes, a stack of nodes that are being looked at and the finished
ones.  `Searching` is what every step of it keeps: a finished node has no unseen successor, and a
node on the stack has none but those that it still has to look at.  When the stack is empty the seen
nodes are therefore closed under successors.

* `Digraph.Reaches`: there is a path from one node to another.
* `Digraph.mem_revPostOrder_iff`: the order lists the nodes that the entry reaches.
* `Digraph.reachable_dominance_iff`: so does the test of reachability that dominators carry.
-/

namespace LayerCheck.Digraph

variable {n : Nat}

def Edge (g : Digraph n) (u v : Fin n) : Prop := v ∈ g.succ u

/-- There is a path from one node to the other, possibly without an edge. -/
def Reaches (g : Digraph n) : Fin n → Fin n → Prop := Relation.ReflTransGen g.Edge

/-- What the search keeps, for the root `r`. -/
structure Searching (g : Digraph n) (r : Fin n) (unseen : List (Fin n))
    (stack : List (Fin n × List (Fin n))) (finished : List (Fin n)) : Prop where
  unseen_nodup : unseen.Nodup
  covered : ∀ v, v ∉ unseen → v ∈ finished ∨ ∃ ws, (v, ws) ∈ stack
  root_seen : r ∉ unseen
  finished_seen : ∀ v ∈ finished, v ∉ unseen
  finished_closed : ∀ v ∈ finished, ∀ w ∈ g.succ v, w ∉ unseen
  stack_seen : ∀ v ws, (v, ws) ∈ stack → v ∉ unseen
  stack_closed : ∀ v ws, (v, ws) ∈ stack → ∀ w ∈ g.succ v, w ∉ ws → w ∉ unseen
  stack_pending : ∀ v ws, (v, ws) ∈ stack → ∀ w ∈ ws, w ∈ g.succ v
  reached : ∀ v, v ∉ unseen → g.Reaches r v

namespace Searching

variable {g : Digraph n} {r v w : Fin n} {unseen finished ws : List (Fin n)}
  {rest : List (Fin n × List (Fin n))}

theorem start (g : Digraph n) (r : Fin n) :
    g.Searching r ((List.finRange n).erase r) [(r, g.succ r)] [] where
  unseen_nodup := (List.nodup_finRange n).erase r
  covered v hv := by
    have h : v = r := by
      by_contra hne
      exact hv ((List.mem_erase_of_ne hne).mpr (List.mem_finRange v))
    exact Or.inr ⟨g.succ r, by simp [h]⟩
  root_seen := (List.nodup_finRange n).not_mem_erase
  finished_seen := by simp
  finished_closed := by simp
  stack_seen v ws h := by
    simp only [List.mem_singleton, Prod.mk.injEq] at h
    rw [h.1]
    exact (List.nodup_finRange n).not_mem_erase
  stack_closed v ws h w hw hws := by
    simp only [List.mem_singleton, Prod.mk.injEq] at h
    rw [h.1] at hw
    exact absurd (h.2 ▸ hw) hws
  stack_pending v ws h w hw := by
    simp only [List.mem_singleton, Prod.mk.injEq] at h
    rw [h.1]
    exact h.2 ▸ hw
  reached v hv := by
    have h : v = r := by
      by_contra hne
      exact hv ((List.mem_erase_of_ne hne).mpr (List.mem_finRange v))
    rw [h]
    exact Relation.ReflTransGen.refl

theorem finish (h : g.Searching r unseen ((v, []) :: rest) finished) :
    g.Searching r unseen rest (v :: finished) where
  unseen_nodup := h.unseen_nodup
  covered u hu := by
    rcases h.covered u hu with hf | ⟨us, hs⟩
    · exact Or.inl (List.mem_cons_of_mem v hf)
    · rcases List.mem_cons.mp hs with he | hs
      · exact Or.inl (by rw [(Prod.mk.inj he).1]; exact List.mem_cons_self)
      · exact Or.inr ⟨us, hs⟩
  root_seen := h.root_seen
  finished_seen u hu := by
    rcases List.mem_cons.mp hu with rfl | hu
    · exact h.stack_seen u [] List.mem_cons_self
    · exact h.finished_seen u hu
  finished_closed u hu := by
    rcases List.mem_cons.mp hu with rfl | hu
    · exact fun x hx => h.stack_closed u [] List.mem_cons_self x hx (by simp)
    · exact h.finished_closed u hu
  stack_seen u us hu := h.stack_seen u us (List.mem_cons_of_mem _ hu)
  stack_closed u us hu := h.stack_closed u us (List.mem_cons_of_mem _ hu)
  stack_pending u us hu := h.stack_pending u us (List.mem_cons_of_mem _ hu)
  reached := h.reached

theorem skip (h : g.Searching r unseen ((v, w :: ws) :: rest) finished) (hw : w ∉ unseen) :
    g.Searching r unseen ((v, ws) :: rest) finished where
  unseen_nodup := h.unseen_nodup
  covered u hu := by
    rcases h.covered u hu with hf | ⟨us, hs⟩
    · exact Or.inl hf
    · rcases List.mem_cons.mp hs with he | hs
      · exact Or.inr ⟨ws, by rw [(Prod.mk.inj he).1]; exact List.mem_cons_self⟩
      · exact Or.inr ⟨us, List.mem_cons_of_mem _ hs⟩
  root_seen := h.root_seen
  finished_seen := h.finished_seen
  finished_closed := h.finished_closed
  stack_seen u us hu := by
    rcases List.mem_cons.mp hu with he | hu
    · rw [(Prod.mk.inj he).1]
      exact h.stack_seen v (w :: ws) List.mem_cons_self
    · exact h.stack_seen u us (List.mem_cons_of_mem _ hu)
  stack_closed u us hu x hx hxs := by
    rcases List.mem_cons.mp hu with he | hu
    · obtain ⟨rfl, rfl⟩ := Prod.mk.inj he
      by_cases hxw : x = w
      · rw [hxw]
        exact hw
      · exact h.stack_closed u (w :: us) List.mem_cons_self x hx (by simp [hxw, hxs])
    · exact h.stack_closed u us (List.mem_cons_of_mem _ hu) x hx hxs
  stack_pending u us hu x hx := by
    rcases List.mem_cons.mp hu with he | hu
    · obtain ⟨rfl, rfl⟩ := Prod.mk.inj he
      exact h.stack_pending u (w :: us) List.mem_cons_self x (List.mem_cons_of_mem w hx)
    · exact h.stack_pending u us (List.mem_cons_of_mem _ hu) x hx
  reached := h.reached

theorem visit (h : g.Searching r unseen ((v, w :: ws) :: rest) finished) :
    g.Searching r (unseen.erase w) ((w, g.succ w) :: (v, ws) :: rest) finished := by
  -- what has been seen stays so, and `w` is the only node that joins it
  have hseen : ∀ u, u ∉ unseen → u ∉ unseen.erase w := fun u hu hc => hu (List.mem_of_mem_erase hc)
  have hnew : ∀ u, u ∉ unseen.erase w → u = w ∨ u ∉ unseen := by
    intro u hu
    by_cases he : u = w
    · exact Or.inl he
    · exact Or.inr fun hc => hu ((List.mem_erase_of_ne he).mpr hc)
  have hw : w ∉ unseen.erase w := h.unseen_nodup.not_mem_erase
  have hreach : g.Reaches r w := by
    have hv := h.reached v (h.stack_seen v (w :: ws) List.mem_cons_self)
    exact hv.tail (h.stack_pending v (w :: ws) List.mem_cons_self w List.mem_cons_self)
  exact {
    unseen_nodup := h.unseen_nodup.erase w
    covered := by
      intro u hu
      rcases hnew u hu with rfl | hu
      · exact Or.inr ⟨g.succ u, List.mem_cons_self⟩
      · rcases h.covered u hu with hf | ⟨us, hs⟩
        · exact Or.inl hf
        · rcases List.mem_cons.mp hs with he | hs
          · exact Or.inr ⟨ws, by rw [(Prod.mk.inj he).1]; simp⟩
          · exact Or.inr ⟨us, by simp [hs]⟩
    root_seen := hseen r h.root_seen
    finished_seen := fun u hu => hseen u (h.finished_seen u hu)
    finished_closed := fun u hu x hx => hseen x (h.finished_closed u hu x hx)
    stack_seen := by
      intro u us hu
      rcases List.mem_cons.mp hu with he | hu
      · rw [(Prod.mk.inj he).1]
        exact hw
      · rcases List.mem_cons.mp hu with he | hu
        · rw [(Prod.mk.inj he).1]
          exact hseen v (h.stack_seen v (w :: ws) List.mem_cons_self)
        · exact hseen u (h.stack_seen u us (List.mem_cons_of_mem _ hu))
    stack_closed := by
      intro u us hu x hx hxs
      rcases List.mem_cons.mp hu with he | hu
      · obtain ⟨rfl, rfl⟩ := Prod.mk.inj he
        exact absurd hx hxs
      · rcases List.mem_cons.mp hu with he | hu
        · obtain ⟨rfl, rfl⟩ := Prod.mk.inj he
          by_cases hxw : x = w
          · rw [hxw]
            exact hw
          · exact hseen x (h.stack_closed u (w :: us) List.mem_cons_self x hx (by simp [hxw, hxs]))
        · exact hseen x (h.stack_closed u us (List.mem_cons_of_mem _ hu) x hx hxs)
    stack_pending := by
      intro u us hu x hx
      rcases List.mem_cons.mp hu with he | hu
      · obtain ⟨rfl, rfl⟩ := Prod.mk.inj he
        exact hx
      · rcases List.mem_cons.mp hu with he | hu
        · obtain ⟨rfl, rfl⟩ := Prod.mk.inj he
          exact h.stack_pending u (w :: us) List.mem_cons_self x (List.mem_cons_of_mem w hx)
        · exact h.stack_pending u us (List.mem_cons_of_mem _ hu) x hx
    reached := by
      intro u hu
      rcases hnew u hu with rfl | hu
      · exact hreach
      · exact h.reached u hu }

end Searching

theorem mem_search_iff {g : Digraph n} {r : Fin n} {unseen finished : List (Fin n)}
    {stack : List (Fin n × List (Fin n))} (h : g.Searching r unseen stack finished) (v : Fin n) :
    v ∈ g.search unseen stack finished ↔ g.Reaches r v := by
  fun_induction search g unseen stack finished with
  | case1 unseen finished =>
    constructor
    · exact fun hv => h.reached v (h.finished_seen v hv)
    · intro hv
      -- the seen nodes contain the root and are closed under successors
      have hseen : v ∉ unseen := by
        induction hv with
        | refl => exact h.root_seen
        | tail _ he ih =>
          rcases h.covered _ ih with hf | ⟨ws, hs⟩
          · exact h.finished_closed _ hf _ he
          · simp at hs
      rcases h.covered v hseen with hf | ⟨ws, hs⟩
      · exact hf
      · simp at hs
  | case2 unseen finished v rest ih => exact ih h.finish
  | case3 unseen finished v w ws rest hw ih => exact ih h.visit
  | case4 unseen finished v w ws rest hw ih => exact ih (h.skip hw)

/-- **The depth-first order lists exactly the nodes that the entry reaches.** -/
theorem mem_revPostOrder_iff {g : Digraph n} {v : Fin n} :
    v ∈ g.revPostOrder ↔ ∃ r, entry? n = some r ∧ g.Reaches r v := by
  rw [revPostOrder]
  cases hr : entry? n with
  | none => simp
  | some r => simpa using mem_search_iff (Searching.start g r) v

theorem reachable_dominance_iff {g : Digraph n} {v : Fin n} :
    g.dominance.reachable v = true ↔ ∃ r, entry? n = some r ∧ g.Reaches r v := by
  have h : g.dominance.position.get v = g.revPostOrder.idxOf? v := Vector.getElem_ofFn v.isLt
  rw [← mem_revPostOrder_iff, Dominance.reachable, h, List.isSome_idxOf?]

end LayerCheck.Digraph
