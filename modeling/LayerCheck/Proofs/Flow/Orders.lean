import LayerCheck.Proofs.Digraph.Retreating
import LayerCheck.Proofs.Flow.NaturalLoops
import Mathlib.Data.List.Permutation

/-!
# Orders of the reachable blocks

The flow graph lists the reachable blocks in the order in which a depth-first search finishes them,
and backwards.  Backwards the entry comes first, every other block after one that jumps to it, and
a dominator before what it dominates; the blocks of a reducible implementation come in the order of
their jumps, except for the back edges.

* `FlowGraph.mem_revPostOrder_iff`, `FlowGraph.head?_revPostOrder`: what is listed, and from where.
* `FlowGraph.sublist_revPostOrder`, `FlowGraph.sublist_loopHeaders`: in which order.
* `Implementation.traversal_orders_exact`: all of it.
-/

namespace LayerCheck

variable {i : Implementation} {a b h k l : String}

namespace FlowGraph

theorem revPostOrder_flow (i : Implementation) :
    i.flow.revPostOrder = i.flow.graph.revPostOrder.map i.flow.label := by
  rw [revPostOrder, i.flow.dominance_eq]
  rfl

theorem nodup_revPostOrder (hn : i.labels.Nodup) : i.flow.revPostOrder.Nodup := by
  rw [revPostOrder_flow]
  refine List.Nodup.map (fun u v he => label_injective hn he) ?_
  cases hr : Digraph.entry? i.flow.size with
  | none =>
    rw [Digraph.revPostOrder, hr]
    exact List.nodup_nil
  | some r => exact (Digraph.lined_revPostOrder hr).nodup

/-- **The reachable blocks are listed.** -/
theorem mem_revPostOrder_iff (hn : i.labels.Nodup) :
    l ∈ i.flow.revPostOrder ↔ l ∈ i.labels ∧ i.Reachable l := by
  rw [revPostOrder_flow, List.mem_map]
  simp only [Digraph.mem_revPostOrder_iff, ← Digraph.reachable_dominance_iff,
    ← i.flow.dominance_eq, Implementation.reachable_dominance_flow_iff hn]
  constructor
  · rintro ⟨v, hv, rfl⟩
    exact ⟨label_mem_labels v, hv⟩
  · rintro ⟨hl, hr⟩
    obtain ⟨v, rfl⟩ := exists_label_eq hl
    exact ⟨v, hr, rfl⟩

theorem head?_revPostOrder (i : Implementation) : i.flow.revPostOrder.head? = i.entryLabel? := by
  rw [revPostOrder_flow, List.head?_map, ← entry?_flow]
  cases hr : Digraph.entry? i.flow.size with
  | none =>
    rw [Digraph.revPostOrder, hr]
    rfl
  | some r => rw [(Digraph.lined_revPostOrder hr).head]

/-- **Every listed block but the entry comes after one that jumps to it.** -/
theorem exists_earlier (hn : i.labels.Nodup) (hl : l ∈ i.flow.revPostOrder)
    (hne : i.entryLabel? ≠ some l) : ∃ a, i.Edge a l ∧ [a, l].Sublist i.flow.revPostOrder := by
  rw [revPostOrder_flow] at hl ⊢
  obtain ⟨v, hv, rfl⟩ := List.mem_map.mp hl
  obtain ⟨r, hr, -⟩ := Digraph.mem_revPostOrder_iff.mp hv
  have hvr : v ≠ r := by
    rintro rfl
    exact hne (by rw [← entry?_flow, hr, Option.map_some])
  obtain ⟨u, he, hs⟩ := (Digraph.lined_revPostOrder hr).earlier v hv hvr
  exact ⟨i.flow.label u, (edge_graph_iff hn).mp he, hs.map i.flow.label⟩

/-- **In a reducible implementation only back edges lead against the order.** -/
theorem sublist_revPostOrder (hn : i.labels.Nodup) (hred : i.flow.isReducible = true)
    (ha : i.Reachable a) (hb : b ∈ i.labels) (he : i.Edge a b)
    (hback : (a, b) ∉ i.flow.backEdges) : [a, b].Sublist i.flow.revPostOrder := by
  obtain ⟨e, hentry, hr⟩ := ha
  obtain ⟨r, hroot, rfl⟩ := exists_entry? hentry
  obtain ⟨u, rfl⟩ := exists_label_eq (mem_labels_of_edge he)
  obtain ⟨v, rfl⟩ := exists_label_eq hb
  rw [isReducible, i.flow.dominance_eq] at hred
  rw [mem_backEdges_iff hn hentry, ← backEdge_graph_iff hn] at hback
  have hu := (reaches_graph_iff hn).mpr hr
  have huv := (edge_graph_iff hn).mpr he
  rw [revPostOrder_flow]
  exact (Digraph.sublist_of_not_dominates hroot hred hu huv
    fun hd => hback ⟨hu, huv, hd⟩).map i.flow.label

theorem loopHeaders_flow (hn : i.labels.Nodup) : i.flow.loopHeaders =
    (i.flow.graph.loopHeaders i.flow.graph.dominance).map i.flow.label := by
  rw [loopHeaders, i.flow.dominance_eq]
  refine List.Nodup.eraseDups_eq (List.Nodup.map (fun u v he => label_injective hn he) ?_)
  refine List.Nodup.filter _ ?_
  have hnodup := nodup_revPostOrder hn
  rw [revPostOrder_flow] at hnodup
  exact List.Nodup.of_map _ hnodup

/-- **A loop header comes before the loop headers that it dominates.** -/
theorem sublist_loopHeaders (hn : i.labels.Nodup) (hh : h ∈ i.flow.loopHeaders)
    (hk : k ∈ i.flow.loopHeaders) (hne : h ≠ k) (hd : i.Dominates h k) :
    [h, k].Sublist i.flow.loopHeaders := by
  rw [loopHeaders_flow hn] at hh hk ⊢
  obtain ⟨u, hu, rfl⟩ := List.mem_map.mp hh
  obtain ⟨v, hv, rfl⟩ := List.mem_map.mp hk
  obtain ⟨hvo, hvh⟩ := List.mem_filter.mp hv
  obtain ⟨r, hroot, hr⟩ := Digraph.mem_revPostOrder_iff.mp hvo
  have he : i.entryLabel? = some (i.flow.label r) := by
    rw [← entry?_flow, hroot, Option.map_some]
  have hdom := (dominates_graph_iff hn).mpr (hd _ he)
  have hs := (Digraph.sublist_of_dominates hroot hr hdom fun e => hne (e ▸ rfl)).filter
    ((i.flow.graph.backEdges i.flow.graph.dominance).map Prod.snd).contains
  rw [List.filter_cons_of_pos (List.mem_filter.mp hu).2, List.filter_cons_of_pos hvh,
    List.filter_nil] at hs
  exact hs.map i.flow.label

end FlowGraph

namespace Implementation

/-- **The orders of the blocks are exact.**  Post order lists the blocks that jumps lead to from the
entry, each once, and nothing else; reverse post order is the same list backwards and begins with
the entry.  Every other block in it comes after a block that jumps to it; if the implementation is
reducible, every jump from a reachable block to a block that is no back edge leads to a later block.
Loop headers come before the loop headers that they dominate. -/
theorem traversal_orders_exact (hn : i.labels.Nodup) :
    (i.flow.postOrder.Nodup ∧ ∀ l, l ∈ i.flow.postOrder ↔ l ∈ i.labels ∧ i.Reachable l) ∧
    (i.flow.revPostOrder = i.flow.postOrder.reverse ∧
      i.flow.revPostOrder.head? = i.entryLabel?) ∧
    (∀ l ∈ i.flow.revPostOrder, i.entryLabel? ≠ some l →
      ∃ a, i.Edge a l ∧ [a, l].Sublist i.flow.revPostOrder) ∧
    (i.flow.isReducible = true → ∀ a b, i.Reachable a → b ∈ i.labels → i.Edge a b →
      (a, b) ∉ i.flow.backEdges → [a, b].Sublist i.flow.revPostOrder) ∧
    (i.flow.loopHeaders.Nodup ∧
      ∀ h ∈ i.flow.loopHeaders, ∀ k ∈ i.flow.loopHeaders, h ≠ k → i.Dominates h k →
        [h, k].Sublist i.flow.loopHeaders) := by
  refine ⟨⟨List.nodup_reverse.mpr (FlowGraph.nodup_revPostOrder hn), fun l => ?_⟩,
    ⟨(List.reverse_reverse _).symm, FlowGraph.head?_revPostOrder i⟩,
    fun l hl hne => FlowGraph.exists_earlier hn hl hne,
    fun hred a b ha hb he hback => FlowGraph.sublist_revPostOrder hn hred ha hb he hback,
    List.nodup_eraseDups _,
    fun h hh k hk hne hd => FlowGraph.sublist_loopHeaders hn hh hk hne hd⟩
  rw [FlowGraph.postOrder, List.mem_reverse, FlowGraph.mem_revPostOrder_iff hn]

end Implementation

namespace Counter

/-- A loop within a loop, with the way out listed before the way in. -/
def nested : Implementation where
  name := "M"
  procedure := "M"
  blocks :=
    [{ label := "h", transfer := .goto ["x", "k"] },
      { label := "x", transfer := .ret },
      { label := "k", transfer := .goto ["k", "h"] }]

theorem traversal_orders_exact_nested :
    nested.labels.Nodup ∧ nested.flow.isReducible = true ∧
      ["h", "k"].Sublist nested.flow.revPostOrder ∧
      ["h", "x"].Sublist nested.flow.revPostOrder ∧ ["h", "k"].Sublist nested.flow.loopHeaders := by
  have hn : nested.labels.Nodup := by decide
  have hred : nested.flow.isReducible = true := by cbv
  have hback : nested.flow.backEdges = [("k", "k"), ("k", "h")] := by cbv
  have hheaders : nested.flow.loopHeaders = ["h", "k"] := by cbv
  have hh : nested.Reachable "h" := ⟨"h", rfl, .refl⟩
  have hdom : nested.Dominates "h" "k" :=
    (Implementation.dominates_iff_of_entry rfl).mpr fun π hπ => hπ.root_mem
  obtain ⟨-, -, -, horder, -, hloops⟩ := Implementation.traversal_orders_exact hn
  refine ⟨hn, hred, horder hred "h" "k" hh (by decide) (by decide) ?_,
    horder hred "h" "x" hh (by decide) (by decide) ?_, hloops "h" ?_ "k" ?_ (by decide) hdom⟩
  · rw [hback]
    decide
  · rw [hback]
    decide
  · rw [hheaders]
    decide
  · rw [hheaders]
    decide

end Counter

end LayerCheck
