import LayerCheck.Proofs.Flow.Loops

/-!
# Natural loops of an implementation

A natural loop is gathered against the jumps from its source, and the header stops the search.  So
it holds exactly the header and the blocks from which jumps lead to the source around the header.
If the header dominates the source it dominates them all, and the loop is entered there only.

* `FlowGraph.mem_backEdges_iff_dominates`, `FlowGraph.mem_loopHeaders_iff_dominates`: back edges and
  loop headers, also of an implementation without blocks.
* `Implementation.natural_loops_exact`: what natural loops hold.
-/

namespace LayerCheck

variable {i : Implementation} {h s : String}

namespace FlowGraph

theorem nodup_naturalLoop (g : FlowGraph) (h s : String) : (g.naturalLoop h s).Nodup := by
  rw [naturalLoop]
  split
  · exact List.nodup_eraseDups _
  · exact List.nodup_nil

theorem nodup_blocksInLoops (g : FlowGraph) (hs : List String) : (g.blocksInLoops hs).Nodup :=
  List.nodup_eraseDups _

theorem exists_entryLabel?_of_node (v : Fin i.flow.size) : ∃ e, i.entryLabel? = some e := by
  refine ⟨i.flow.label ⟨0, v.pos⟩, ?_⟩
  rw [← entry?_flow, Digraph.entry?, dif_pos v.pos, Option.map_some]

theorem exists_entryLabel?_of_mem_backEdges (hb : (s, h) ∈ i.flow.backEdges) :
    ∃ e, i.entryLabel? = some e := by
  obtain ⟨⟨u, -⟩, -, -⟩ := List.mem_map.mp hb
  exact exists_entryLabel?_of_node u

theorem mem_backEdges_iff_dominates (hn : i.labels.Nodup) :
    (s, h) ∈ i.flow.backEdges ↔ i.Reachable s ∧ i.Edge s h ∧ i.Dominates h s := by
  have hiff : ∀ e, i.entryLabel? = some e →
      ((s, h) ∈ i.flow.backEdges ↔ i.Reachable s ∧ i.Edge s h ∧ i.Dominates h s) := by
    intro e he
    rw [mem_backEdges_iff hn he, Implementation.reachable_iff he,
      Implementation.dominates_iff_of_entry he]
    rfl
  constructor
  · intro hb
    obtain ⟨e, he⟩ := exists_entryLabel?_of_mem_backEdges hb
    exact (hiff e he).mp hb
  · intro hb
    obtain ⟨e, he, -⟩ := hb.1
    exact (hiff e he).mpr hb

theorem mem_loopHeaders_iff_dominates (hn : i.labels.Nodup) :
    h ∈ i.flow.loopHeaders ↔ ∃ s, i.Reachable s ∧ i.Edge s h ∧ i.Dominates h s := by
  have hiff : ∀ e, i.entryLabel? = some e →
      (h ∈ i.flow.loopHeaders ↔ ∃ s, (s, h) ∈ i.flow.backEdges) := by
    intro e he
    rw [mem_loopHeaders_iff hn he]
    exact exists_congr fun s => (mem_backEdges_iff hn he).symm
  simp only [← mem_backEdges_iff_dominates hn]
  constructor
  · intro hh
    obtain ⟨v, -, -⟩ := List.mem_map.mp (List.mem_eraseDups.mp hh)
    obtain ⟨e, he⟩ := exists_entryLabel?_of_node v
    exact (hiff e he).mp hh
  · rintro ⟨s, hb⟩
    obtain ⟨e, he⟩ := exists_entryLabel?_of_mem_backEdges hb
    exact (hiff e he).mpr ⟨s, hb⟩

end FlowGraph

namespace Implementation

/-- **Natural loops are exact.**  The natural loop of a source holds, each once, the header and the
blocks with a path to the source that does not pass through the header; jumps from outside lead to
its header only.  The back edges are the jumps of reachable blocks to blocks that dominate them, and
the header of a back edge dominates the whole loop.  The blocks in the loops of some headers are
those in the natural loops of the back edges to them, each once. -/
theorem natural_loops_exact (hn : i.labels.Nodup) :
    (∀ h ∈ i.labels, ∀ s ∈ i.labels, (i.flow.naturalLoop h s).Nodup ∧
      (∀ l, l ∈ i.flow.naturalLoop h s ↔ l = h ∨ ∃ π, Trail i.Edge l (s :: π) ∧ h ∉ s :: π) ∧
      (∀ a l, a ∉ i.flow.naturalLoop h s → l ∈ i.flow.naturalLoop h s → i.Edge a l → l = h)) ∧
    (∀ s h, (s, h) ∈ i.flow.backEdges ↔ i.Reachable s ∧ i.Edge s h ∧ i.Dominates h s) ∧
    (∀ s h, (s, h) ∈ i.flow.backEdges → h ∈ i.labels ∧ s ∈ i.labels ∧
      ∀ l ∈ i.flow.naturalLoop h s, i.Dominates h l) ∧
    ∀ hs, (i.flow.blocksInLoops hs).Nodup ∧ ∀ l, l ∈ i.flow.blocksInLoops hs ↔
      ∃ h ∈ hs, ∃ s, (s, h) ∈ i.flow.backEdges ∧ l ∈ i.flow.naturalLoop h s := by
  have hmem : ∀ h ∈ i.labels, ∀ s ∈ i.labels, ∀ l, l ∈ i.flow.naturalLoop h s ↔
      InLoop i.Edge h s l := fun h hh s hs l => FlowGraph.mem_naturalLoop_iff hn hh hs
  refine ⟨fun h hh s hs => ⟨FlowGraph.nodup_naturalLoop _ h s, fun l => ?_, fun a l ha hl he => ?_⟩,
    fun s h => FlowGraph.mem_backEdges_iff_dominates hn, fun s h hb => ?_,
    fun hs => ⟨FlowGraph.nodup_blocksInLoops _ hs, fun l => FlowGraph.mem_blocksInLoops_iff _⟩⟩
  · rw [hmem h hh s hs, inLoop_iff_exists_trail]
  · by_contra hlh
    rw [hmem h hh s hs] at ha hl
    exact ha (hl.of_edge hlh he)
  · obtain ⟨e, he⟩ := FlowGraph.exists_entryLabel?_of_mem_backEdges hb
    have hback := (FlowGraph.mem_backEdges_iff hn he).mp hb
    obtain ⟨hs, hh⟩ := FlowGraph.mem_labels_of_backEdge hback
    refine ⟨hh, hs, fun l hl => (dominates_iff_of_entry he).mpr ?_⟩
    exact ((hmem h hh s hs l).mp hl).dominates hback.2.2

end Implementation

namespace Counter

/-- A loop whose header does not dominate it may hold the entry, and any loop may hold blocks that
are not reachable. -/
theorem natural_loops_exact_tangled :
    tangled.labels.Nodup ∧ "a" ∈ tangled.flow.naturalLoop "c" "b" ∧
      "u" ∈ tangled.flow.naturalLoop "c" "d" ∧ ("d", "d") ∈ tangled.flow.backEdges ∧
      ∀ l ∈ tangled.flow.naturalLoop "d" "d", tangled.Dominates "d" l := by
  have hn : tangled.labels.Nodup := by decide
  obtain ⟨hloop, hback, hdom, -⟩ := Implementation.natural_loops_exact hn
  have hab : Trail tangled.Edge "a" ["b", "a"] := .step .start (by decide)
  have hud : Trail tangled.Edge "u" ["d", "u"] := .step .start (by decide)
  have hreach : tangled.Reachable "d" :=
    ⟨"a", rfl, .head (by decide : tangled.Edge "a" "c") (.single (by decide))⟩
  have hdd : ("d", "d") ∈ tangled.flow.backEdges :=
    (hback "d" "d").mpr ⟨hreach, by decide, fun e _ => .refl "d"⟩
  refine ⟨hn, ((hloop "c" (by decide) "b" (by decide)).2.1 "a").mpr ?_,
    ((hloop "c" (by decide) "d" (by decide)).2.1 "u").mpr ?_, hdd, (hdom "d" "d" hdd).2.2⟩
  · exact .inr ⟨["a"], hab, by decide⟩
  · exact .inr ⟨["u"], hud, by decide⟩

end Counter

end LayerCheck
