import LayerCheck.Proofs.Digraph.Peeling
import LayerCheck.Proofs.Flow.Dominance

/-!
# Loops of labels

Back edges, loops and reducibility as the flow graph of an implementation has them, said of the
jumps between its labels.  All of it depends on the jumps and the entry only, so it is the same for
an implementation whose commands have changed, and for one that has lost its unreachable blocks.

* `FlowGraph.mem_backEdges_iff`, `FlowGraph.mem_loopHeaders_iff`, `FlowGraph.isReducible_iff`.
* `FlowGraph.mem_naturalLoop_iff`, `FlowGraph.mem_blocksInLoops_iff_inLoop`.
-/

namespace LayerCheck.FlowGraph

variable {i : Implementation} {e h l s : String} {r u v w : Fin i.flow.size} {hs : List String}

theorem mem_labels_of_around (hl : l ∈ i.labels) (ha : Around i.Edge h s l) : s ∈ i.labels := by
  rcases Relation.ReflTransGen.cases_head ha with rfl | ⟨b, he, -⟩
  · exact hl
  · exact mem_labels_of_edge he.1

theorem mem_labels_of_backEdge (hb : BackEdge i.Edge e s h) : s ∈ i.labels ∧ h ∈ i.labels :=
  ⟨mem_labels_of_edge hb.2.1,
    mem_labels_of_dominates (mem_labels_of_edge hb.2.1) hb.1 hb.2.2⟩

/-! ## Positions and labels -/

theorem backEdge_graph_iff (hn : i.labels.Nodup) :
    BackEdge i.flow.graph.Edge r u v ↔
      BackEdge i.Edge (i.flow.label r) (i.flow.label u) (i.flow.label v) :=
  and_congr (reaches_graph_iff hn) (and_congr (edge_graph_iff hn) (dominates_graph_iff hn))

theorem forward_graph_iff (hn : i.labels.Nodup) :
    Forward i.flow.graph.Edge r u v ↔
      Forward i.Edge (i.flow.label r) (i.flow.label u) (i.flow.label v) :=
  and_congr (reaches_graph_iff hn)
    (and_congr (edge_graph_iff hn) (not_congr (dominates_graph_iff hn)))

theorem inLoop_graph_iff (hn : i.labels.Nodup) :
    InLoop i.flow.graph.Edge u v w ↔
      InLoop i.Edge (i.flow.label u) (i.flow.label v) (i.flow.label w) := by
  have hlabel : ∀ {x y}, i.flow.label x = i.flow.label y ↔ x = y :=
    ⟨label_injective hn, congrArg i.flow.label⟩
  refine or_congr hlabel.symm (reflTransGen_label_iff hn (fun _ _ he => mem_labels_of_edge he.1) ?_)
  intro x y
  exact and_congr (edge_graph_iff hn) (and_congr (not_congr hlabel.symm) (not_congr hlabel.symm))

/-! ## What is computed -/

/-- **The back edges are the jumps of reachable blocks to their dominators.** -/
theorem mem_backEdges_iff (hn : i.labels.Nodup) (he : i.entryLabel? = some e) :
    (s, h) ∈ i.flow.backEdges ↔ BackEdge i.Edge e s h := by
  obtain ⟨r, hroot, rfl⟩ := exists_entry? he
  rw [backEdges, List.mem_map, i.flow.dominance_eq]
  constructor
  · intro hx
    obtain ⟨⟨u, v⟩, hb, hl⟩ := hx
    obtain ⟨rfl, rfl⟩ := Prod.mk.inj hl
    exact (backEdge_graph_iff hn).mp ((Digraph.mem_backEdges_iff hroot).mp hb)
  · intro hb
    obtain ⟨hsl, hhl⟩ := mem_labels_of_backEdge hb
    obtain ⟨u, rfl⟩ := exists_label_eq hsl
    obtain ⟨v, rfl⟩ := exists_label_eq hhl
    exact ⟨(u, v), (Digraph.mem_backEdges_iff hroot).mpr ((backEdge_graph_iff hn).mpr hb), rfl⟩

/-- **The loop headers are the blocks that a reachable block which they dominate jumps to.** -/
theorem mem_loopHeaders_iff (hn : i.labels.Nodup) (he : i.entryLabel? = some e) :
    h ∈ i.flow.loopHeaders ↔ ∃ s, BackEdge i.Edge e s h := by
  obtain ⟨r, hroot, rfl⟩ := exists_entry? he
  rw [loopHeaders, List.mem_eraseDups, List.mem_map, i.flow.dominance_eq]
  simp only [Digraph.mem_loopHeaders_iff hroot]
  constructor
  · intro hx
    obtain ⟨v, ⟨u, hb⟩, rfl⟩ := hx
    exact ⟨i.flow.label u, (backEdge_graph_iff hn).mp hb⟩
  · intro hx
    obtain ⟨s, hb⟩ := hx
    obtain ⟨hsl, hhl⟩ := mem_labels_of_backEdge hb
    obtain ⟨u, rfl⟩ := exists_label_eq hsl
    obtain ⟨v, rfl⟩ := exists_label_eq hhl
    exact ⟨v, ⟨u, (backEdge_graph_iff hn).mpr hb⟩, rfl⟩

/-- **A natural loop holds its header and what leads to its source around the header.** -/
theorem mem_naturalLoop_iff (hn : i.labels.Nodup) (hh : h ∈ i.labels) (hs : s ∈ i.labels) :
    l ∈ i.flow.naturalLoop h s ↔ InLoop i.Edge h s l := by
  obtain ⟨u, rfl⟩ := exists_label_eq hh
  obtain ⟨v, rfl⟩ := exists_label_eq hs
  rw [naturalLoop, (node?_eq_some_iff hn).mpr rfl, (node?_eq_some_iff hn).mpr rfl]
  simp only [List.mem_eraseDups, List.mem_map, Digraph.mem_naturalLoop_iff]
  constructor
  · intro hx
    obtain ⟨w, hw, rfl⟩ := hx
    exact (inLoop_graph_iff hn).mp hw
  · intro hl
    have hmem : l ∈ i.labels := by
      rcases hl with rfl | ha
      · exact hh
      · exact mem_labels_of_around hs ha
    obtain ⟨w, rfl⟩ := exists_label_eq hmem
    exact ⟨w, (inLoop_graph_iff hn).mpr hl, rfl⟩

/-- **The blocks in the loops of some headers are those in the loop of a back edge to one.** -/
theorem mem_blocksInLoops_iff_inLoop (hn : i.labels.Nodup) (he : i.entryLabel? = some e) :
    l ∈ i.flow.blocksInLoops hs ↔
      ∃ h ∈ hs, ∃ s, BackEdge i.Edge e s h ∧ InLoop i.Edge h s l := by
  rw [mem_blocksInLoops_iff]
  refine exists_congr fun h => and_congr_right fun _ => exists_congr fun s => ?_
  rw [mem_backEdges_iff hn he]
  refine and_congr_right fun hb => ?_
  obtain ⟨hsl, hhl⟩ := mem_labels_of_backEdge hb
  exact mem_naturalLoop_iff hn hhl hsl

/-- **An implementation is reducible if its forward jumps close no cycle.** -/
theorem isReducible_iff (hn : i.labels.Nodup) (he : i.entryLabel? = some e) :
    i.flow.isReducible = true ↔ ∀ l, ¬ Relation.TransGen (Forward i.Edge e) l l := by
  obtain ⟨r, hroot, rfl⟩ := exists_entry? he
  rw [isReducible, i.flow.dominance_eq, Digraph.isReducible_iff hroot]
  have hsource : ∀ a b, Forward i.Edge (i.flow.label r) a b → a ∈ i.labels :=
    fun _ _ hf => mem_labels_of_edge hf.2.1
  constructor
  · intro hacyclic l hl
    obtain ⟨b, hlb, -⟩ := Relation.TransGen.head'_iff.mp hl
    obtain ⟨v, rfl⟩ := exists_label_eq (hsource l b hlb)
    exact hacyclic v ((transGen_label_iff hn hsource fun _ _ => forward_graph_iff hn).mpr hl)
  · intro hacyclic v hv
    exact hacyclic _ ((transGen_label_iff hn hsource fun _ _ => forward_graph_iff hn).mp hv)

/-! ## What it depends on -/

/-- The blocks in loops depend on the jumps and the entry only. -/
theorem mem_blocksInLoops_congr {j : Implementation} (hn : i.labels.Nodup) (hj : j.labels.Nodup)
    (he : i.entryLabel? = some e) (hje : j.entryLabel? = some e)
    (hE : ∀ a b, j.Edge a b ↔ i.Edge a b) :
    l ∈ j.flow.blocksInLoops hs ↔ l ∈ i.flow.blocksInLoops hs := by
  have hedge : j.Edge = i.Edge := by
    funext a b
    exact propext (hE a b)
  rw [mem_blocksInLoops_iff_inLoop hj hje, mem_blocksInLoops_iff_inLoop hn he, hedge]

/-- Of the labels that are given as headers only those of loop headers count. -/
theorem mem_blocksInLoops_of_headers (hn : i.labels.Nodup) (he : i.entryLabel? = some e)
    {ks : List String} (hk : ∀ h ∈ i.flow.loopHeaders, h ∈ hs ↔ h ∈ ks) :
    l ∈ i.flow.blocksInLoops hs ↔ l ∈ i.flow.blocksInLoops ks := by
  rw [mem_blocksInLoops_iff_inLoop hn he, mem_blocksInLoops_iff_inLoop hn he]
  refine exists_congr fun h => ?_
  by_cases hh : h ∈ i.flow.loopHeaders
  · rw [hk h hh]
  · refine iff_of_false ?_ ?_
    · exact fun hx => hh ((mem_loopHeaders_iff hn he).mpr (hx.2.imp fun _ hs => hs.1))
    · exact fun hx => hh ((mem_loopHeaders_iff hn he).mpr (hx.2.imp fun _ hs => hs.1))

theorem edge_prune_iff_of_entry (hn : i.labels.Nodup) (he : i.entryLabel? = some e)
    (a b : String) : i.prune.Edge a b ↔ i.Edge a b ∧ Relation.ReflTransGen i.Edge e a :=
  (Implementation.edge_prune_iff hn).trans
    (and_congr_right fun _ => Implementation.reachable_iff he)

/-- **Pruning takes the unreachable blocks out of the loops, and nothing else.** -/
theorem mem_blocksInLoops_prune_iff (hn : i.labels.Nodup) (he : i.entryLabel? = some e) :
    l ∈ i.prune.flow.blocksInLoops hs ↔
      l ∈ i.flow.blocksInLoops hs ∧ Relation.ReflTransGen i.Edge e l := by
  have hE := edge_prune_iff_of_entry hn he
  have hpe := (Implementation.entryLabel?_prune hn).trans he
  have hpn := (Implementation.labels_prune_sublist i).nodup hn
  rw [mem_blocksInLoops_iff_inLoop hpn hpe, mem_blocksInLoops_iff_inLoop hn he]
  simp only [backEdge_iff_of_reachable hE]
  constructor
  · intro hx
    obtain ⟨h, hh, s, hb, hl⟩ := hx
    obtain ⟨hl, hr⟩ := (inLoop_iff_of_reachable hE hb).mp hl
    exact ⟨⟨h, hh, s, hb, hl⟩, hr⟩
  · intro hx
    obtain ⟨⟨h, hh, s, hb, hl⟩, hr⟩ := hx
    exact ⟨h, hh, s, hb, (inLoop_iff_of_reachable hE hb).mpr ⟨hl, hr⟩⟩

end LayerCheck.FlowGraph
