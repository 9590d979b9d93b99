import LayerCheck.Proofs.Flow.Paths
import LayerCheck.Proofs.Lists

/-!
# Flow graphs of blocks that share labels

A label that several blocks share stands for the last of them in the flow graph, so a jump to it
misses the others.  What the graph takes for reachable is reachable in any case; the converse needs
that no label on the way is shared.

* `Implementation.reachable_of_reachable_flow`: the graph reaches nothing that jumps do not lead to.
* `Implementation.reachable_flow_of_edge`: a jump from a label of one block is seen by the graph.
* `Implementation.intact_prune_iff`: when pruning keeps the entry and leaves all labels distinct.
-/

namespace LayerCheck

namespace FlowGraph

variable {i : Implementation}

theorem exists_node? {l : String} (hl : l ∈ i.labels) :
    ∃ v, i.flow.node? l = some v ∧ i.flow.label v = l := by
  obtain ⟨u, rfl⟩ := exists_label_eq hl
  have hs : (i.flow.node? (i.flow.label u)).isSome := lastWithLabel?_isSome u
  obtain ⟨v, hv⟩ := Option.isSome_iff_exists.mp hs
  exact ⟨v, hv, label_eq_of_lastWithLabel? hv⟩

/-- The jumps of the graph lead to the last blocks with the labels. -/
theorem edge_graph_iff_node? {v w : Fin i.flow.size} :
    i.flow.graph.Edge v w ↔ ∃ t ∈ (i.blocks.get v).successors, i.flow.node? t = some w := by
  rw [Digraph.Edge, succ_flow, List.mem_eraseDups, List.mem_filterMap]

theorem edge_of_edge_graph {v w : Fin i.flow.size} (h : i.flow.graph.Edge v w) :
    i.Edge (i.flow.label v) (i.flow.label w) := by
  obtain ⟨t, ht, hw⟩ := edge_graph_iff_node?.mp h
  rw [label_flow, show i.flow.label w = t from label_eq_of_lastWithLabel? hw]
  exact ⟨_, List.get_mem i.blocks v, rfl, ht⟩

theorem getElem?_labels_flow (v : Fin i.flow.size) : i.labels[v.val]? = some (i.flow.label v) := by
  rw [label_flow]
  exact Implementation.getElem?_labels (List.getElem?_eq_getElem v.isLt)

/-- A label that is not shared has one position. -/
theorem eq_of_label_eq_of_count {v w : Fin i.flow.size}
    (h : i.labels.count (i.flow.label v) = 1) (hl : i.flow.label w = i.flow.label v) : w = v :=
  Fin.ext (List.eq_of_getElem?_of_count h (hl ▸ getElem?_labels_flow w) (getElem?_labels_flow v))

end FlowGraph

namespace Implementation

open FlowGraph

variable {i : Implementation} {a b e l : String}

/-- **What the flow graph takes for reachable jumps lead to.** -/
theorem reachable_of_reachable_flow (h : i.flow.reachable l = true) : i.Reachable l := by
  rw [FlowGraph.reachable, Option.any_eq_true] at h
  obtain ⟨v, hv, hr⟩ := h
  rw [i.flow.dominance_eq, Digraph.reachable_dominance_iff] at hr
  obtain ⟨r, he, hr⟩ := hr
  rw [← show i.flow.label v = l from label_eq_of_lastWithLabel? hv]
  refine ⟨i.flow.label r, ?_, hr.lift i.flow.label fun _ _ => edge_of_edge_graph⟩
  rw [← entry?_flow, he, Option.map_some]

/-- **The flow graph follows a jump from a label that is not shared.** -/
theorem reachable_flow_of_edge (ha : i.flow.reachable a = true) (h : i.labels.count a = 1)
    (he : i.Edge a b) (hb : b ∈ i.labels) : i.flow.reachable b = true := by
  rw [FlowGraph.reachable, Option.any_eq_true] at ha
  obtain ⟨v, hv, hr⟩ := ha
  obtain rfl : i.flow.label v = a := label_eq_of_lastWithLabel? hv
  obtain ⟨c, hc, hcl, hbc⟩ := he
  obtain ⟨u, rfl⟩ := List.get_of_mem hc
  rw [show u = v from eq_of_label_eq_of_count h ((label_flow i u).trans hcl)] at hbc
  obtain ⟨w, hw, -⟩ := exists_node? hb
  rw [i.flow.dominance_eq, Digraph.reachable_dominance_iff] at hr
  obtain ⟨r, hre, hr⟩ := hr
  rw [FlowGraph.reachable, hw, Option.any_some, i.flow.dominance_eq,
    Digraph.reachable_dominance_iff]
  exact ⟨r, hre, hr.tail (edge_graph_iff_node?.mpr ⟨b, hbc, hw⟩)⟩

theorem reachable_flow_of_entry (he : i.entryLabel? = some e) (h : i.labels.count e = 1) :
    i.flow.reachable e = true := by
  rw [← entry?_flow, Option.map_eq_some_iff] at he
  obtain ⟨r, he, rfl⟩ := he
  have hm : i.flow.label r ∈ i.labels := List.count_pos_iff.mp (by omega)
  obtain ⟨v, hv, hl⟩ := exists_node? hm
  obtain rfl : v = r := eq_of_label_eq_of_count h hl
  rw [FlowGraph.reachable, hv, Option.any_some, i.flow.dominance_eq,
    Digraph.reachable_dominance_iff]
  exact ⟨v, he, .refl⟩

/-- **If no label that jumps lead to is shared, the flow graph finds them all.** -/
theorem reachable_flow_iff_of_count (h : ∀ l, i.Reachable l → i.labels.count l = 1) :
    i.flow.reachable l = true ↔ i.Reachable l := by
  refine ⟨reachable_of_reachable_flow, fun hl => ?_⟩
  obtain ⟨e, he, hr⟩ := hl
  induction hr with
  | refl => exact reachable_flow_of_entry he (h e ⟨e, he, .refl⟩)
  | tail hr hlm ih =>
    have hm := h _ ⟨e, he, hr.tail hlm⟩
    exact reachable_flow_of_edge ih (h _ ⟨e, he, hr⟩) hlm (List.count_pos_iff.mp (by omega))

/-! ## Pruning -/

theorem labels_prune (i : Implementation) : i.prune.labels = i.labels.filter i.flow.reachable := by
  rw [labels, labels, List.filter_map]
  rfl

theorem mem_labels_prune : l ∈ i.prune.labels ↔ l ∈ i.labels ∧ i.flow.reachable l = true := by
  rw [labels_prune, List.mem_filter]

theorem count_labels_prune (h : i.flow.reachable l = true) :
    i.prune.labels.count l = i.labels.count l := by
  rw [labels_prune, List.count_filter h]

/-- **Pruning keeps the entry and leaves all labels distinct** exactly if no label that jumps lead
to is shared. -/
theorem intact_prune_iff (hc : i.Closed) (he : i.entryLabel? = some e) :
    i.prune.labels.Nodup ∧ e ∈ i.prune.labels ↔ ∀ l, i.Reachable l → i.labels.count l = 1 := by
  constructor
  · rintro ⟨hn, hm⟩
    have hone : ∀ l ∈ i.prune.labels, i.labels.count l = 1 := by
      intro l hl
      rw [← count_labels_prune (mem_labels_prune.mp hl).2]
      exact List.count_eq_one_of_mem hn hl
    have hkept : ∀ l, i.Reachable l → l ∈ i.prune.labels := by
      intro l hl
      obtain ⟨e', he', hr⟩ := hl
      obtain rfl : e = e' := Option.some_inj.mp (he.symm.trans he')
      induction hr with
      | refl => exact hm
      | tail _ hlm ih =>
        have hm := hc.mem_labels_of_edge hlm
        exact mem_labels_prune.mpr
          ⟨hm, reachable_flow_of_edge (mem_labels_prune.mp ih).2 (hone _ ih) hlm hm⟩
    exact fun l hl => hone l (hkept l hl)
  · intro h
    have hentry : i.Reachable e := ⟨e, he, .refl⟩
    refine ⟨List.nodup_iff_count_le_one.mpr fun l => ?_, mem_labels_prune.mpr
      ⟨hentry.mem_labels hc, (reachable_flow_iff_of_count h).mpr hentry⟩⟩
    by_cases hl : l ∈ i.prune.labels
    · have hr := (mem_labels_prune.mp hl).2
      exact Nat.le_of_eq ((count_labels_prune hr).trans (h l (reachable_of_reachable_flow hr)))
    · rw [List.count_eq_zero_of_not_mem hl]
      exact Nat.zero_le 1

theorem closed_prune_of_count (hc : i.Closed) (h : ∀ l, i.Reachable l → i.labels.count l = 1) :
    i.prune.Closed := by
  intro b hb t ht
  obtain ⟨hb, hr⟩ := List.mem_filter.mp hb
  have hreach := (reachable_of_reachable_flow hr).edge ⟨b, hb, rfl, ht⟩
  exact mem_labels_prune.mpr ⟨hc b hb t ht, (reachable_flow_iff_of_count h).mpr hreach⟩

theorem entryLabel?_prune_of_reachable (he : i.entryLabel? = some e)
    (h : i.flow.reachable e = true) : i.prune.entryLabel? = some e := by
  obtain ⟨ls, hls⟩ := List.head?_eq_some_iff.mp he
  rw [entryLabel?, labels_prune, hls, List.filter_cons, if_pos h, List.head?_cons]

end Implementation

end LayerCheck
