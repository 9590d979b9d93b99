import LayerCheck.Proofs.Digraph.DomRounds
import LayerCheck.Proofs.Digraph.Search
import Mathlib.Data.List.NodupEquivFin

/-!
# Reverse post order

The nodes that a depth-first search has seen stand in a line: those on the stack from the bottom
up, then the finished ones.  A node that is finished keeps its place in the line, and one that is
found is put behind the node that it was found from.  So in the end every node but the first comes
after one of its predecessors, which is what the rounds that look for dominators start from.

* `Digraph.Lined`: what the line keeps.
* `Digraph.lined_revPostOrder`: it is kept to the end.
* `Dominance.ordered_predPositions`: the rounds look at the positions in such an order.
-/

namespace LayerCheck

variable {n : Nat} {g : Digraph n} {r u v w : Fin n}

namespace Digraph

/-! ## The line of the nodes that have been seen -/

/-- No node comes twice, the root comes first, and any other node has a predecessor before it. -/
structure Lined (g : Digraph n) (r : Fin n) (line : List (Fin n)) : Prop where
  nodup : line.Nodup
  head : line.head? = some r
  earlier : ∀ v ∈ line, v ≠ r → ∃ u, g.Edge u v ∧ [u, v].Sublist line

/-- The stack from the bottom up, then what is finished. -/
def lineOf (stack : List (Fin n × List (Fin n))) (finished : List (Fin n)) : List (Fin n) :=
  (stack.map Prod.fst).reverse ++ finished

theorem lineOf_cons (v : Fin n) (ws : List (Fin n)) (rest : List (Fin n × List (Fin n)))
    (finished : List (Fin n)) :
    lineOf ((v, ws) :: rest) finished = lineOf rest (v :: finished) := by
  simp [lineOf]

/-- A node that is found takes its place behind the one that it is found from. -/
theorem Lined.visit {ws : List (Fin n)} {rest : List (Fin n × List (Fin n))}
    {finished : List (Fin n)} (h : g.Lined r (lineOf ((v, w :: ws) :: rest) finished))
    (hw : w ∉ lineOf ((v, w :: ws) :: rest) finished) (he : g.Edge v w) :
    g.Lined r (lineOf ((w, g.succ w) :: (v, ws) :: rest) finished) := by
  generalize hs : (((v, ws) :: rest).map Prod.fst).reverse = front
  have hold : lineOf ((v, w :: ws) :: rest) finished = front ++ finished := by
    rw [lineOf, ← hs]
    rfl
  have hnew : lineOf ((w, g.succ w) :: (v, ws) :: rest) finished = front ++ w :: finished := by
    rw [lineOf_cons, lineOf, ← hs]
  have hv : v ∈ front := by simp [← hs]
  rw [hold] at h hw
  rw [hnew]
  have hsub : (front ++ finished).Sublist (front ++ w :: finished) :=
    (List.Sublist.refl front).append (List.sublist_cons_self w finished)
  constructor
  case nodup => exact List.nodup_middle.mpr (List.nodup_cons.mpr ⟨hw, h.nodup⟩)
  case head =>
    have hne : front ≠ [] := List.ne_nil_of_mem hv
    rw [List.head?_append_of_ne_nil _ hne, ← h.head, List.head?_append_of_ne_nil _ hne]
  case earlier =>
    intro x hx hxr
    by_cases hxw : x = w
    · subst hxw
      refine ⟨v, he, ?_⟩
      exact (List.singleton_sublist.mpr hv).append
        (List.singleton_sublist.mpr List.mem_cons_self)
    · have hmem : x ∈ front ++ finished := by
        rcases List.mem_append.mp hx with hf | hf
        · exact List.mem_append_left _ hf
        · exact List.mem_append_right _ ((List.mem_cons.mp hf).resolve_left hxw)
      obtain ⟨u, hu, hs⟩ := h.earlier x hmem hxr
      exact ⟨u, hu, hs.trans hsub⟩

theorem lined_search {unseen finished : List (Fin n)} {stack : List (Fin n × List (Fin n))}
    (h : g.Searching r unseen stack finished) (hl : g.Lined r (lineOf stack finished)) :
    g.Lined r (g.search unseen stack finished) := by
  fun_induction search g unseen stack finished with
  | case1 unseen finished => exact hl
  | case2 unseen finished v rest ih =>
    rw [lineOf_cons] at hl
    exact ih h.finish hl
  | case3 unseen finished v w ws rest hw ih =>
    refine ih h.visit (hl.visit ?_ (h.stack_pending v (w :: ws) List.mem_cons_self w
      List.mem_cons_self))
    intro hc
    rcases List.mem_append.mp hc with hs | hf
    · rw [List.mem_reverse, List.mem_map] at hs
      obtain ⟨⟨_, us⟩, hs, rfl⟩ := hs
      exact h.stack_seen _ us hs hw
    · exact h.finished_seen w hf hw
  | case4 unseen finished v w ws rest hw ih =>
    rw [lineOf_cons] at hl
    exact ih (h.skip hw) ((lineOf_cons v ws rest finished) ▸ hl)

/-- **In reverse post order every node but the entry comes after one of its predecessors.** -/
theorem lined_revPostOrder (hr : entry? n = some r) : g.Lined r g.revPostOrder := by
  rw [revPostOrder, hr]
  refine lined_search (Searching.start g r) ?_
  rw [lineOf_cons]
  constructor
  case nodup => exact List.nodup_singleton r
  case head => rfl
  case earlier => exact fun v hv hne => absurd (List.mem_singleton.mp hv) hne

end Digraph

namespace Dominance

variable {order : List (Fin n)} {i j k : Nat}

/-! ## Positions -/

theorem position_eq_some_iff (hn : order.Nodup) :
    (positions order).get v = some k ↔ order[k]? = some v := by
  have h : (positions order).get v = order.idxOf? v := Vector.getElem_ofFn v.isLt
  rw [h, List.idxOf?_eq_some_iff, List.getElem?_eq_some_iff]
  constructor
  · intro hx
    obtain ⟨hk, hv, -⟩ := hx
    exact ⟨hk, hv⟩
  · intro hx
    obtain ⟨hk, rfl⟩ := hx
    refine ⟨hk, rfl, fun j hj he => ?_⟩
    rw [hn.getElem_inj_iff] at he
    omega

theorem eq_of_getElem? (hn : order.Nodup) (hj : order[j]? = some v) (hk : order[k]? = some v) :
    j = k := by
  obtain ⟨hlt, -⟩ := List.getElem?_eq_some_iff.mp hj
  exact (List.getElem?_inj hlt hn).mp (hj.trans hk.symm)

/-- Positions lead to each other as their nodes do. -/
theorem leads_predPositions_iff (hn : order.Nodup) :
    DomMap.Leads (fun k => (predPositions g order).getD k []) j k ↔
      ∃ u v, order[j]? = some u ∧ order[k]? = some v ∧ g.Edge u v := by
  have hget : (predPositions g order).getD k [] =
      (order[k]?.map fun v => (g.pred v).filterMap (positions order).get).getD [] := by
    rw [predPositions, Array.getD_eq_getD_getElem?, Array.getElem?_map, List.getElem?_toArray]
  rw [DomMap.Leads, hget]
  cases hk : order[k]? with
  | none => simp
  | some v =>
    simp only [Option.map_some, Option.getD_some, List.mem_filterMap, Digraph.mem_pred,
      position_eq_some_iff hn, Option.some_inj]
    constructor
    · intro hx
      obtain ⟨u, he, hu⟩ := hx
      exact ⟨u, v, hu, rfl, he⟩
    · intro hx
      obtain ⟨u, _, hu, rfl, he⟩ := hx
      exact ⟨u, he, hu⟩

/-- **The rounds look at a position after one of its predecessors.** -/
theorem ordered_predPositions (h : g.Lined r order) :
    DomMap.Ordered (fun k => (predPositions g order).getD k []) order.length where
  pos := by
    apply List.length_pos_of_mem (a := r)
    exact List.mem_of_mem_head? h.head
  inside j k hjk := by
    obtain ⟨u, v, hu, hv, -⟩ := (leads_predPositions_iff h.nodup).mp hjk
    exact ⟨(List.getElem?_eq_some_iff.mp hu).1, (List.getElem?_eq_some_iff.mp hv).1⟩
  earlier k hk hlt := by
    have hne : order[k] ≠ r := by
      intro he
      have hfirst : order[0]? = some r := by rw [← List.head?_eq_getElem?, h.head]
      have hk' : order[k]? = some r := by rw [List.getElem?_eq_getElem hlt, he]
      have := eq_of_getElem? h.nodup hk' hfirst
      omega
    obtain ⟨u, he, hs⟩ := h.earlier order[k] (List.getElem_mem hlt) hne
    obtain ⟨f, hf⟩ := List.sublist_iff_exists_orderEmbedding_getElem?_eq.mp hs
    have hu : order[f 0]? = some u := (hf 0).symm
    have hk' : order[f 1]? = some order[k] := (hf 1).symm
    refine ⟨f 0, (leads_predPositions_iff h.nodup).mpr ⟨u, _, hu, ?_, he⟩, ?_⟩
    · exact List.getElem?_eq_getElem hlt
    · have hlt' : f 0 < f 1 := f.strictMono Nat.one_pos
      rw [eq_of_getElem? h.nodup hk' (List.getElem?_eq_getElem hlt)] at hlt'
      exact hlt'

end Dominance

end LayerCheck
