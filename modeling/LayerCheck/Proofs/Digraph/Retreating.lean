import LayerCheck.Proofs.Digraph.Peeling

/-!
# Edges against the order

The nodes on the stack of a depth-first search are a path from the root.  When a node is finished,
its successors are finished, so that it comes before them, or they are on that path.  An edge to a
node of the path leads to a dominator if the graph is reducible; so of a reducible graph only the
back edges lead against the order.  Dominators come first in any case, since the rounds find them
among earlier positions.

* `Digraph.Traced`: what the search keeps of the path.
* `Digraph.sublist_or_retreats`: the edges against the order.
* `Digraph.sublist_of_not_dominates`, `Digraph.sublist_of_dominates`: forward edges and dominators.
-/

namespace LayerCheck

variable {n : Nat} {g : Digraph n} {r u v w : Fin n}

/-- The target of an edge lies on a path to its source that comes to no node twice. -/
def Retreats {α : Type} (E : α → α → Prop) (r u v : α) : Prop :=
  ∃ π, Trail E r (u :: π) ∧ (u :: π).Nodup ∧ v ∈ u :: π

namespace Digraph

/-- What the search keeps of the path on its stack. -/
structure Traced (g : Digraph n) (r : Fin n) (stack : List (Fin n × List (Fin n)))
    (finished : List (Fin n)) : Prop where
  trail : stack ≠ [] → Trail g.Edge r (stack.map Prod.fst)
  nodup : (stack.map Prod.fst).Nodup
  edges : ∀ u ∈ finished, ∀ v, g.Edge u v → [u, v].Sublist finished ∨ Retreats g.Edge r u v

namespace Traced

variable {unseen finished ws : List (Fin n)} {rest : List (Fin n × List (Fin n))}

theorem start (g : Digraph n) (r : Fin n) : g.Traced r [(r, g.succ r)] [] where
  trail _ := .start
  nodup := List.nodup_singleton r
  edges _ hu := absurd hu List.not_mem_nil

/-- A node that is finished has no successor but those that are finished and those on the path. -/
theorem finish (hs : g.Searching r unseen ((v, []) :: rest) finished)
    (h : g.Traced r ((v, []) :: rest) finished) : g.Traced r rest (v :: finished) where
  trail hne := by
    have ht : Trail g.Edge r (v :: rest.map Prod.fst) := h.trail (List.cons_ne_nil _ _)
    generalize hσ : rest.map Prod.fst = σ at ht
    cases ht with
    | start => exact absurd (List.map_eq_nil_iff.mp hσ) hne
    | step ht _ => exact ht
  nodup := (List.nodup_cons.mp h.nodup).2
  edges u hu w he := by
    rcases List.mem_cons.mp hu with rfl | hu
    · have hseen := hs.stack_closed u [] List.mem_cons_self w he List.not_mem_nil
      rcases hs.covered w hseen with hf | ⟨us, hw⟩
      · exact .inl ((List.singleton_sublist.mpr hf).cons_cons u)
      · exact .inr ⟨_, h.trail (List.cons_ne_nil _ _), h.nodup, List.mem_map_of_mem (f := Prod.fst) hw⟩
    · exact (h.edges u hu w he).imp_left (·.cons v)

theorem skip (h : g.Traced r ((v, w :: ws) :: rest) finished) :
    g.Traced r ((v, ws) :: rest) finished where
  trail _ := h.trail (List.cons_ne_nil _ _)
  nodup := h.nodup
  edges := h.edges

/-- A node that is found continues the path. -/
theorem visit (hs : g.Searching r unseen ((v, w :: ws) :: rest) finished) (hw : w ∈ unseen)
    (h : g.Traced r ((v, w :: ws) :: rest) finished) :
    g.Traced r ((w, g.succ w) :: (v, ws) :: rest) finished where
  trail _ := by
    have he := hs.stack_pending v (w :: ws) List.mem_cons_self w List.mem_cons_self
    exact (h.trail (List.cons_ne_nil _ _)).step he
  nodup := by
    refine List.nodup_cons.mpr ⟨fun hm => ?_, h.nodup⟩
    obtain ⟨⟨_, us⟩, hm, rfl⟩ :=
      List.mem_map.mp (show w ∈ ((v, w :: ws) :: rest).map Prod.fst from hm)
    exact hs.stack_seen _ us hm hw
  edges := h.edges

end Traced

theorem edges_search {unseen finished : List (Fin n)} {stack : List (Fin n × List (Fin n))}
    (hs : g.Searching r unseen stack finished) (h : g.Traced r stack finished) :
    ∀ u ∈ g.search unseen stack finished, ∀ v, g.Edge u v →
      [u, v].Sublist (g.search unseen stack finished) ∨ Retreats g.Edge r u v := by
  fun_induction search g unseen stack finished with
  | case1 unseen finished => exact h.edges
  | case2 unseen finished v rest ih => exact ih hs.finish (h.finish hs)
  | case3 unseen finished v w ws rest hw ih => exact ih hs.visit (h.visit hs hw)
  | case4 unseen finished v w ws rest hw ih => exact ih (hs.skip hw) h.skip

/-- **An edge leads on in reverse post order, or back on a path to its source.** -/
theorem sublist_or_retreats (hr : entry? n = some r) (hu : g.Reaches r u) (he : g.Edge u v) :
    [u, v].Sublist g.revPostOrder ∨ Retreats g.Edge r u v := by
  have hm := ((listed_revPostOrder (g := g) hr).mem_iff u).mpr hu
  rw [revPostOrder, hr] at hm ⊢
  exact edges_search (Searching.start g r) (Traced.start g r) u hm v he

/-- **In a reducible graph only back edges lead against the order.** -/
theorem sublist_of_not_dominates (hr : entry? n = some r)
    (hred : g.isReducible g.dominance = true) (hu : g.Reaches r u) (he : g.Edge u v)
    (hd : ¬ Dominates g.Edge r v u) : [u, v].Sublist g.revPostOrder := by
  rcases sublist_or_retreats hr hu he with hs | ⟨π, hπ, hn, hv⟩
  · exact hs
  · exact absurd (hπ.dominates_of_edge hn hv he ((isReducible_iff hr).mp hred)) hd

/-- **Dominators come first in reverse post order.** -/
theorem sublist_of_dominates (hr : entry? n = some r) (hv : g.Reaches r v)
    (hd : Dominates g.Edge r u v) (hne : u ≠ v) : [u, v].Sublist g.revPostOrder := by
  have hl := listed_revPostOrder (g := g) hr
  have hv' := (hl.mem_iff v).mpr hv
  obtain ⟨k, hk⟩ := List.mem_iff_getElem?.mp hv'
  obtain ⟨j, hj⟩ := List.mem_iff_getElem?.mp (hl.mem_of_dominates hv' hd)
  have hlt := (List.getElem?_eq_some_iff.mp hk).1
  have habove := ((DomMap.exact_ofPredecessors (Dominance.ordered_predPositions hl.toLined) k
    hlt).2 j).mpr ((hl.dominates_iff hj hk).mpr hd)
  have hjk : j < k := by
    refine lt_of_le_of_ne habove.le fun he => hne ?_
    rw [he, hk, Option.some_inj] at hj
    exact hj.symm
  rw [← List.take_append_drop k g.revPostOrder]
  refine (List.singleton_sublist.mpr ?_).append (List.singleton_sublist.mpr ?_)
  · exact List.mem_of_getElem? ((List.getElem?_take_of_lt hjk).trans hj)
  · exact List.mem_of_getElem? (List.getElem?_drop.trans hk : _[0]? = some v)

end Digraph

end LayerCheck
