import LayerCheck.Proofs.Digraph.Part
import LayerCheck.Proofs.Flow.Orders
import LayerCheck.Proofs.Flow.Reducible
import LayerCheck.Proofs.Flow.Repeated

/-!
# What pruning keeps

Pruning takes out the blocks that are not reachable and leaves the others as they are.  A block that
is kept jumps to blocks that are kept, so a search from the entry does not notice: the orders,
dominators, back edges and loop headers stay the same, even in the order in which they are listed.
Only natural loops change.  They are gathered against the jumps, and lose what is not reachable.

* `FlowGraph.successors_flow`, `FlowGraph.backEdges_flow`: the flow graph in terms of labels.
* `Implementation.exists_part_prune`: the flow graph of the blocks that are kept is a part that no
  jump leaves.
* `Implementation.pruning_exact`: what pruning keeps.
-/

namespace LayerCheck

variable {i : Implementation} {a b d e h l s : String}

namespace FlowGraph

/-! ## The flow graph in terms of labels -/

theorem labelsFrom_label (hn : i.labels.Nodup) (v : Fin i.flow.size)
    (f : Fin i.flow.size → List (Fin i.flow.size)) :
    i.flow.labelsFrom (i.flow.label v) f = (f v).map i.flow.label := by
  rw [labelsFrom, (node?_eq_some_iff hn).mpr rfl]
  rfl

theorem mem_labels_of_mem_successors (h : b ∈ i.flow.successors a) : b ∈ i.labels := by
  obtain ⟨v, -, rfl⟩ := List.mem_map.mp h
  exact label_mem_labels v

theorem mem_labels_of_mem_naturalLoop (hl : l ∈ i.flow.naturalLoop h s) : l ∈ i.labels := by
  rw [naturalLoop] at hl
  split at hl
  · obtain ⟨v, -, rfl⟩ := List.mem_map.mp (List.mem_eraseDups.mp hl)
    exact label_mem_labels v
  · exact absurd hl List.not_mem_nil

theorem map_label_node? (hn : i.labels.Nodup) (l : String) :
    (i.flow.node? l).map i.flow.label = if l ∈ i.labels then some l else none := by
  split
  · rename_i hl
    obtain ⟨v, rfl⟩ := exists_label_eq hl
    rw [(node?_eq_some_iff hn).mpr rfl, Option.map_some]
  · rename_i hl
    rw [Option.map_eq_none_iff, Option.eq_none_iff_forall_ne_some]
    intro v hv
    exact hl ((node?_eq_some_iff hn).mp hv ▸ label_mem_labels v)

/-- **The successors of a block are the blocks that it names, each once.** -/
theorem successors_flow (hn : i.labels.Nodup) {c : Block} (hc : c ∈ i.blocks) :
    i.flow.successors c.label = (c.successors.filter (· ∈ i.labels)).eraseDups := by
  obtain ⟨v, hv⟩ := exists_label_eq (Implementation.mem_labels.mpr ⟨c, hc, rfl⟩)
  have hget : i.blocks.get v = c :=
    Implementation.eq_of_label_eq hn (List.get_mem i.blocks v) hc ((label_flow i v).symm.trans hv)
  have hinj : Function.Injective i.flow.label := fun _ _ => label_injective hn
  rw [← hv, successors, labelsFrom_label hn, succ_flow, ← List.map_eraseDups hinj,
    List.map_filterMap, hget]
  congr 1
  simp only [map_label_node? hn]
  rw [← List.filterMap_eq_filter]
  congr 1
  funext t
  simp [Option.guard]

theorem dominates_label (hn : i.labels.Nodup) (u v : Fin i.flow.size) :
    i.flow.dominates (i.flow.label u) (i.flow.label v) = i.flow.dominance.dominates u v := by
  rw [dominates, (node?_eq_some_iff hn).mpr rfl, (node?_eq_some_iff hn).mpr rfl]

theorem backEdges_flow (hn : i.labels.Nodup) :
    i.flow.backEdges = i.flow.revPostOrder.flatMap fun l =>
      ((i.flow.successors l).filter fun m => i.flow.dominates m l).map (l, ·) := by
  rw [backEdges, Digraph.backEdges, revPostOrder, List.map_flatMap, List.flatMap_map]
  congr 1
  funext v
  rw [successors, labelsFrom_label hn, List.filter_map, List.map_map, List.map_map]
  congr 1
  refine List.filter_congr fun w _ => ?_
  rw [Function.comp_apply, dominates_label hn]

theorem loopHeaders_eq_filter (hn : i.labels.Nodup) :
    i.flow.loopHeaders = i.flow.revPostOrder.filter (· ∈ i.flow.backEdges.map Prod.snd) := by
  have hinj : Function.Injective i.flow.label := fun _ _ => label_injective hn
  have hheads : i.flow.backEdges.map Prod.snd =
      ((i.flow.graph.backEdges i.flow.graph.dominance).map Prod.snd).map i.flow.label := by
    rw [backEdges, i.flow.dominance_eq, List.map_map, List.map_map]
    rfl
  rw [loopHeaders_flow hn, Digraph.loopHeaders, revPostOrder, List.filter_map, i.flow.dominance_eq,
    hheads]
  congr 1
  refine List.filter_congr fun v _ => ?_
  rw [Function.comp_apply, Bool.eq_iff_iff, List.contains_iff_mem, decide_eq_true_iff,
    List.mem_map_of_injective hinj]

end FlowGraph

namespace Implementation

/-! ## Which blocks are kept -/

theorem mem_labels_prune_iff_mem (hn : i.labels.Nodup) :
    l ∈ i.prune.labels ↔ l ∈ i.labels ∧ i.Reachable l := by
  rw [mem_labels_prune]
  exact and_congr_right fun hl => reachable_flow_iff_of_mem hn hl

/-- **What is kept is the entry with the blocks that have an immediate dominator.** -/
theorem mem_labels_prune_iff_idom? (hn : i.labels.Nodup) (hl : l ∈ i.labels) :
    l ∈ i.prune.labels ↔ i.entryLabel? = some l ∨ (i.flow.idom? l).isSome = true := by
  rw [mem_labels_prune_iff_mem hn, and_iff_right hl]
  cases he : i.entryLabel? with
  | none => exact absurd hl (List.head?_eq_none_iff.mp he ▸ List.not_mem_nil)
  | some e =>
    rw [reachable_iff he, FlowGraph.isSome_idom?_iff hn he hl, Option.some_inj]
    constructor
    · exact fun hr => (em (e = l)).imp_right fun hne => ⟨hr, Ne.symm hne⟩
    · rintro (rfl | ⟨hr, -⟩)
      · exact .refl
      · exact hr

theorem nodup_labels_prune (hn : i.labels.Nodup) : i.prune.labels.Nodup :=
  i.labels_prune_sublist.nodup hn

open Classical in
theorem blocks_prune (hn : i.labels.Nodup) :
    i.prune.blocks = i.blocks.filter fun c => i.Reachable c.label := by
  refine List.filter_congr fun c hc => ?_
  rw [Bool.eq_iff_iff, decide_eq_true_iff,
    reachable_flow_iff_of_mem hn (mem_labels.mpr ⟨c, hc, rfl⟩)]

open Classical in
theorem unreachableLabels_eq (hn : i.labels.Nodup) :
    i.unreachableLabels = i.labels.filter fun l => ¬ i.Reachable l := by
  refine List.filter_congr fun l hl => ?_
  rw [Bool.eq_iff_iff, decide_eq_true_iff, Bool.not_eq_true', ← reachable_flow_iff_of_mem hn hl,
    Bool.not_eq_true]

theorem reachable_prune_iff (hn : i.labels.Nodup) : i.prune.Reachable l ↔ i.Reachable l := by
  constructor
  · rintro ⟨e, he, hr⟩
    refine ⟨e, (entryLabel?_prune hn).symm.trans he, ?_⟩
    exact Relation.ReflTransGen.mono (fun a b hab => ((edge_prune_iff hn).mp hab).1) e l hr
  · exact reachable_prune hn

/-- All that is left is reachable. -/
theorem reachable_flow_prune (hn : i.labels.Nodup) (hl : l ∈ i.prune.labels) :
    i.prune.flow.reachable l = true := by
  rw [reachable_flow_iff_of_mem (nodup_labels_prune hn) hl, reachable_prune_iff hn]
  exact ((mem_labels_prune_iff_mem hn).mp hl).2

/-- **Pruning twice is pruning once.** -/
theorem prune_prune (hn : i.labels.Nodup) : i.prune.prune = i.prune := by
  have hblocks : i.prune.prune.blocks = i.prune.blocks :=
    List.filter_eq_self.mpr fun c hc => reachable_flow_prune hn (mem_labels.mpr ⟨c, hc, rfl⟩)
  calc i.prune.prune = { i.prune with blocks := i.prune.prune.blocks } := rfl
    _ = i.prune := by rw [hblocks]

theorem unreachableLabels_prune (hn : i.labels.Nodup) : i.prune.unreachableLabels = [] := by
  refine List.filter_eq_nil_iff.mpr fun l hl => ?_
  simp [reachable_flow_prune hn hl]

/-! ## What the flow graph says of them -/

theorem successors_prune (hn : i.labels.Nodup) (hl : l ∈ i.prune.labels) :
    i.prune.flow.successors l = i.flow.successors l := by
  obtain ⟨c, hc, rfl⟩ := mem_labels.mp hl
  obtain ⟨hcm, hr⟩ := (mem_blocks_prune_iff hn).mp hc
  rw [FlowGraph.successors_flow (nodup_labels_prune hn) hc, FlowGraph.successors_flow hn hcm]
  congr 1
  refine List.filter_congr fun t ht => decide_eq_decide.mpr ?_
  rw [mem_labels_prune_iff_mem hn]
  exact and_iff_left (hr.edge ⟨c, hcm, rfl, ht⟩)

theorem exists_strictMono_prune (i : Implementation) :
    ∃ f : Fin i.prune.flow.size → Fin i.flow.size, StrictMono f ∧
      ∀ v, i.flow.label (f v) = i.prune.flow.label v := by
  have hsub : i.prune.blocks.Sublist i.blocks := List.filter_sublist
  obtain ⟨f, hf⟩ := List.sublist_iff_exists_fin_orderEmbedding_get_eq.mp hsub
  refine ⟨f, f.strictMono, fun v => (FlowGraph.label_flow i (f v)).trans ?_⟩
  exact (congrArg Block.label (hf v).symm).trans (FlowGraph.label_flow i.prune v).symm

/-- The flow graph of the blocks that are kept is a part of that of all blocks, and no jump leaves
it. -/
theorem exists_part_prune (hn : i.labels.Nodup) :
    ∃ f, i.prune.flow.graph.Part i.flow.graph f ∧
      ∀ v, i.flow.label (f v) = i.prune.flow.label v := by
  have hinj : Function.Injective i.flow.label := fun _ _ => FlowGraph.label_injective hn
  obtain ⟨f, hmono, hlabel⟩ := i.exists_strictMono_prune
  have hcomp : i.flow.label ∘ f = i.prune.flow.label := funext hlabel
  refine ⟨f, ⟨hmono, ?_, fun v => ?_⟩, hlabel⟩
  · refine Option.map_injective hinj ?_
    rw [FlowGraph.entry?_flow, Option.map_map, hcomp, FlowGraph.entry?_flow, entryLabel?_prune hn]
  · refine List.map_injective_iff.mpr hinj ?_
    calc (i.flow.graph.succ (f v)).map i.flow.label
      _ = i.flow.successors (i.flow.label (f v)) :=
        (FlowGraph.labelsFrom_label hn (f v) i.flow.graph.succ).symm
      _ = i.prune.flow.successors (i.prune.flow.label v) := by
        rw [hlabel, successors_prune hn (FlowGraph.label_mem_labels v)]
      _ = (i.prune.flow.graph.succ v).map i.prune.flow.label :=
        FlowGraph.labelsFrom_label (nodup_labels_prune hn) v i.prune.flow.graph.succ
      _ = ((i.prune.flow.graph.succ v).map f).map i.flow.label := by rw [List.map_map, hcomp]

theorem revPostOrder_prune (hn : i.labels.Nodup) :
    i.prune.flow.revPostOrder = i.flow.revPostOrder := by
  obtain ⟨f, hpart, hlabel⟩ := exists_part_prune hn
  rw [FlowGraph.revPostOrder_flow, FlowGraph.revPostOrder_flow, hpart.revPostOrder_eq,
    List.map_map, show i.flow.label ∘ f = i.prune.flow.label from funext hlabel]

theorem dominates_prune (hn : i.labels.Nodup) (ha : a ∈ i.prune.labels) (hb : b ∈ i.prune.labels) :
    i.prune.flow.dominates a b = i.flow.dominates a b := by
  obtain ⟨hal, -⟩ := (mem_labels_prune_iff_mem hn).mp ha
  obtain ⟨hbl, e, he, hr⟩ := (mem_labels_prune_iff_mem hn).mp hb
  have hE := FlowGraph.edge_prune_iff_of_entry hn he
  have hpe := (entryLabel?_prune hn).trans he
  rw [Bool.eq_iff_iff, FlowGraph.dominates_iff hn he hal hbl hr,
    FlowGraph.dominates_iff (nodup_labels_prune hn) hpe ha hb
      ((reaches_iff_of_reachable hE).mpr hr), dominates_iff_of_reachable hE]

theorem idom?_prune (hn : i.labels.Nodup) (hb : b ∈ i.prune.labels) :
    i.prune.flow.idom? b = i.flow.idom? b := by
  obtain ⟨hbl, e, he, hr⟩ := (mem_labels_prune_iff_mem hn).mp hb
  have hE := FlowGraph.edge_prune_iff_of_entry hn he
  have hpe := (entryLabel?_prune hn).trans he
  refine Option.ext fun d => ?_
  rw [FlowGraph.idom?_eq_some_iff hn he hbl,
    FlowGraph.idom?_eq_some_iff (nodup_labels_prune hn) hpe hb, reaches_iff_of_reachable hE,
    immediateDominator_iff_of_reachable hE]

theorem backEdges_prune (hn : i.labels.Nodup) : i.prune.flow.backEdges = i.flow.backEdges := by
  rw [FlowGraph.backEdges_flow hn, FlowGraph.backEdges_flow (nodup_labels_prune hn),
    revPostOrder_prune hn]
  refine List.flatMap_congr fun l hl => ?_
  have hkept := (mem_labels_prune_iff_mem hn).mpr ((FlowGraph.mem_revPostOrder_iff hn).mp hl)
  have hsucc : ∀ m ∈ i.flow.successors l, m ∈ i.prune.labels := fun m hm =>
    FlowGraph.mem_labels_of_mem_successors ((successors_prune hn hkept).symm ▸ hm)
  rw [successors_prune hn hkept]
  congr 1
  exact List.filter_congr fun m hm => dominates_prune hn (hsucc m hm) hkept

theorem loopHeaders_prune (hn : i.labels.Nodup) :
    i.prune.flow.loopHeaders = i.flow.loopHeaders := by
  rw [FlowGraph.loopHeaders_eq_filter hn, FlowGraph.loopHeaders_eq_filter (nodup_labels_prune hn),
    revPostOrder_prune hn, backEdges_prune hn]

theorem isReducible_prune (hn : i.labels.Nodup) :
    i.prune.flow.isReducible = i.flow.isReducible := by
  rw [Bool.eq_iff_iff, FlowGraph.isReducible_iff_forall hn,
    FlowGraph.isReducible_iff_forall (nodup_labels_prune hn), entryLabel?_prune hn]
  refine forall_congr' fun e => forall_congr' fun he => ?_
  have hforward : Forward i.prune.Edge e = Forward i.Edge e := by
    funext a b
    exact propext (forward_iff_of_reachable (FlowGraph.edge_prune_iff_of_entry hn he))
  rw [hforward]

theorem naturalLoop_prune (hn : i.labels.Nodup) (hh : h ∈ i.prune.labels)
    (hs : s ∈ i.prune.labels) :
    i.prune.flow.naturalLoop h s = (i.flow.naturalLoop h s).filter (· ∈ i.prune.labels) := by
  have hnp := nodup_labels_prune hn
  obtain ⟨f, hpart, hlabel⟩ := exists_part_prune hn
  obtain ⟨v, rfl⟩ := FlowGraph.exists_label_eq hh
  obtain ⟨w, rfl⟩ := FlowGraph.exists_label_eq hs
  have hin : ∀ u, decide (i.flow.label u ∈ i.prune.labels) = true ↔ ∃ x, f x = u := by
    intro u
    rw [decide_eq_true_iff]
    constructor
    · intro hu
      obtain ⟨x, hx⟩ := FlowGraph.exists_label_eq hu
      exact ⟨x, FlowGraph.label_injective hn ((hlabel x).trans hx)⟩
    · rintro ⟨x, rfl⟩
      rw [hlabel]
      exact FlowGraph.label_mem_labels x
  rw [FlowGraph.naturalLoop, (FlowGraph.node?_eq_some_iff hnp).mpr rfl,
    (FlowGraph.node?_eq_some_iff hnp).mpr rfl, FlowGraph.naturalLoop,
    (FlowGraph.node?_eq_some_iff hn).mpr (hlabel v),
    (FlowGraph.node?_eq_some_iff hn).mpr (hlabel w)]
  calc ((i.prune.flow.graph.naturalLoop v w).map i.prune.flow.label).eraseDups
    _ = (((i.prune.flow.graph.naturalLoop v w).map f).map i.flow.label).eraseDups := by
      rw [List.map_map, show i.flow.label ∘ f = i.prune.flow.label from funext hlabel]
    _ = (((i.flow.graph.naturalLoop (f v) (f w)).filter
          fun u => i.flow.label u ∈ i.prune.labels).map i.flow.label).eraseDups := by
      rw [hpart.filter_naturalLoop hin]
    _ = (((i.flow.graph.naturalLoop (f v) (f w)).map i.flow.label).eraseDups).filter
          (· ∈ i.prune.labels) := by
      rw [List.filter_eraseDups, List.filter_map]
      rfl

theorem mem_labels_prune_of_mem_backEdges (hn : i.labels.Nodup)
    (hb : (s, h) ∈ i.flow.backEdges) : s ∈ i.prune.labels ∧ h ∈ i.prune.labels := by
  obtain ⟨hr, he, -⟩ := (FlowGraph.mem_backEdges_iff_dominates hn).mp hb
  obtain ⟨e, hentry⟩ := FlowGraph.exists_entryLabel?_of_mem_backEdges hb
  obtain ⟨hs, hh⟩ :=
    FlowGraph.mem_labels_of_backEdge ((FlowGraph.mem_backEdges_iff hn hentry).mp hb)
  exact ⟨(mem_labels_prune_iff_mem hn).mpr ⟨hs, hr⟩,
    (mem_labels_prune_iff_mem hn).mpr ⟨hh, hr.edge he⟩⟩

open Classical in
/-- **The natural loop of a back edge loses exactly its unreachable members.** -/
theorem naturalLoop_prune_of_mem_backEdges (hn : i.labels.Nodup)
    (hb : (s, h) ∈ i.flow.backEdges) : i.prune.flow.naturalLoop h s =
      (i.flow.naturalLoop h s).filter fun l => i.Reachable l := by
  obtain ⟨hs, hh⟩ := mem_labels_prune_of_mem_backEdges hn hb
  rw [naturalLoop_prune hn hh hs]
  refine List.filter_congr fun l hl => decide_eq_decide.mpr ?_
  rw [mem_labels_prune_iff_mem hn]
  exact and_iff_right (FlowGraph.mem_labels_of_mem_naturalLoop hl)

open Classical in
/-- **Pruning is exact, and analyses do not notice it.**  It keeps the reachable blocks, unchanged
and in their order, and gives the labels of the others in theirs; those it keeps are the entry and
the blocks with an immediate dominator.  Pruning again changes nothing.  If all jumps led to blocks,
they still do.  Of the blocks that are kept the flow graph says the same as before: which ones
dominate which, and which one immediately, what the back edges and the loop headers are, and whether
all is reducible.  The natural loop of a back edge loses its unreachable members, and nothing else. -/
theorem pruning_exact (hn : i.labels.Nodup) :
    (i.prune = { i with blocks := i.blocks.filter fun c => i.Reachable c.label } ∧
      (i.unreachableLabels = i.labels.filter fun l => ¬ i.Reachable l) ∧
      ∀ l ∈ i.labels, l ∈ i.prune.labels ↔
        i.entryLabel? = some l ∨ (i.flow.idom? l).isSome = true) ∧
    (i.prune.prune = i.prune ∧ i.prune.unreachableLabels = []) ∧
    (i.Closed → i.prune.Closed) ∧
    (∀ b ∈ i.prune.labels, i.prune.flow.idom? b = i.flow.idom? b ∧
      ∀ a ∈ i.prune.labels, i.prune.flow.dominates a b = i.flow.dominates a b) ∧
    (i.prune.flow.backEdges = i.flow.backEdges ∧
      i.prune.flow.loopHeaders = i.flow.loopHeaders ∧
      i.prune.flow.isReducible = i.flow.isReducible) ∧
    ∀ s h, (s, h) ∈ i.flow.backEdges → i.prune.flow.naturalLoop h s =
      (i.flow.naturalLoop h s).filter fun l => i.Reachable l := by
  refine ⟨⟨?_, unreachableLabels_eq hn, fun l hl => mem_labels_prune_iff_idom? hn hl⟩,
    ⟨prune_prune hn, unreachableLabels_prune hn⟩,
    closed_prune hn, fun b hb => ⟨idom?_prune hn hb, fun a ha => dominates_prune hn ha hb⟩,
    ⟨backEdges_prune hn, loopHeaders_prune hn, isReducible_prune hn⟩,
    fun s h hb => naturalLoop_prune_of_mem_backEdges hn hb⟩
  rw [← blocks_prune hn]
  rfl

end Implementation

namespace Counter

/-- A loop with a way in from a block that nothing leads to. -/
def besieged : Implementation where
  name := "M"
  procedure := "M"
  blocks :=
    [{ label := "h", transfer := .goto ["k"] },
      { label := "u", transfer := .goto ["k", "v"] },
      { label := "k", transfer := .goto ["h", "x"] },
      { label := "x", transfer := .ret }]

theorem pruning_exact_besieged :
    besieged.labels.Nodup ∧ besieged.unreachableLabels = ["u"] ∧
      besieged.prune.prune = besieged.prune ∧ besieged.prune.flow.backEdges = [("k", "h")] ∧
      besieged.flow.naturalLoop "h" "k" = ["h", "k", "u"] ∧
      besieged.prune.flow.naturalLoop "h" "k" = ["h", "k"] := by
  have hn : besieged.labels.Nodup := by decide
  obtain ⟨⟨-, hgone, -⟩, ⟨hagain, -⟩, -, -, ⟨hback, -, -⟩, hloop⟩ := Implementation.pruning_exact hn
  have hlabels : besieged.unreachableLabels = ["u"] := by cbv
  have hedges : besieged.flow.backEdges = [("k", "h")] := by cbv
  have hmembers : besieged.flow.naturalLoop "h" "k" = ["h", "k", "u"] := by cbv
  have hh : besieged.Reachable "h" := ⟨"h", rfl, .refl⟩
  have hk : besieged.Reachable "k" := hh.edge (by decide)
  have hu : ¬ besieged.Reachable "u" := by
    have hmem : "u" ∈ besieged.unreachableLabels := hlabels ▸ List.mem_singleton.mpr rfl
    rw [hgone, List.mem_filter] at hmem
    simpa using hmem.2
  have hkh : ("k", "h") ∈ besieged.flow.backEdges := hedges ▸ List.mem_singleton.mpr rfl
  refine ⟨hn, hlabels, hagain, hback.trans hedges, hmembers, ?_⟩
  rw [hloop "k" "h" hkh, hmembers]
  simp [hh, hk, hu]

end Counter

end LayerCheck
