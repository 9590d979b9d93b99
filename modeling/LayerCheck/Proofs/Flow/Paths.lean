import LayerCheck.Flow.Prune
import LayerCheck.Proofs.Digraph.NaturalLoop
import Mathlib.Data.List.Basic

/-!
# Jumps between labels

The flow graph of an implementation speaks of positions; the blocks themselves speak of labels.  If
labels are distinct, the two agree: `Implementation.Edge` is the jump from one label to another, and
the reachable positions are those of the labels that a chain of jumps leads to from the entry.

* `Implementation.reachable_flow_iff`: what the flow graph takes for reachable.
* `Implementation.mem_labels_prune_iff`, `Implementation.closed_prune`: what pruning keeps.
* `FlowGraph.mem_blocksInLoops_of_edge`: loops are entered at their headers only.
* `FlowGraph.ofBlocks_congr`: what the flow graph depends on.
-/

namespace LayerCheck

namespace Implementation

/-- A jump from a block to a label. -/
def Edge (i : Implementation) (a b : String) : Prop :=
  ∃ c ∈ i.blocks, c.label = a ∧ b ∈ c.successors

instance (i : Implementation) (a b : String) : Decidable (i.Edge a b) :=
  inferInstanceAs (Decidable (∃ c ∈ i.blocks, c.label = a ∧ b ∈ c.successors))

/-- Every jump leads to a block. -/
def Closed (i : Implementation) : Prop := ∀ b ∈ i.blocks, ∀ t ∈ b.successors, t ∈ i.labels

/-- Jumps lead from the entry to the label. -/
def Reachable (i : Implementation) (l : String) : Prop :=
  ∃ e, i.entryLabel? = some e ∧ Relation.ReflTransGen i.Edge e l

theorem mem_labels {i : Implementation} {l : String} :
    l ∈ i.labels ↔ ∃ b ∈ i.blocks, b.label = l := by
  simp [labels]

theorem getElem?_labels {i : Implementation} {k : Nat} {b : Block} (hb : i.blocks[k]? = some b) :
    i.labels[k]? = some b.label := by
  rw [labels, List.getElem?_map, hb, Option.map_some]

theorem eq_of_label_eq {i : Implementation} (hn : i.labels.Nodup) {b c : Block}
    (hb : b ∈ i.blocks) (hc : c ∈ i.blocks) (h : b.label = c.label) : b = c :=
  List.inj_on_of_nodup_map hn hb hc h

theorem of_block? {i : Implementation} {b : Block} {l : String} (h : i.block? l = some b) :
    b ∈ i.blocks ∧ b.label = l :=
  ⟨List.mem_of_find?_eq_some h, by simpa using List.find?_some h⟩

theorem exists_block? {i : Implementation} {l : String} (h : l ∈ i.labels) :
    ∃ b, i.block? l = some b := by
  obtain ⟨b, hb, rfl⟩ := mem_labels.mp h
  exact Option.isSome_iff_exists.mp (List.find?_isSome.mpr ⟨b, hb, by simp⟩)

theorem block?_eq_some_iff {i : Implementation} (hn : i.labels.Nodup) {b : Block} {l : String} :
    i.block? l = some b ↔ b ∈ i.blocks ∧ b.label = l := by
  constructor
  · exact of_block?
  · intro hx
    obtain ⟨hb, rfl⟩ := hx
    obtain ⟨c, hc⟩ := exists_block? (mem_labels.mpr ⟨b, hb, rfl⟩)
    obtain ⟨hcm, hcl⟩ := of_block? hc
    rw [hc, eq_of_label_eq hn hcm hb hcl]

theorem edge_iff {i : Implementation} (hn : i.labels.Nodup) {b : Block} (hb : b ∈ i.blocks)
    {m : String} : i.Edge b.label m ↔ m ∈ b.successors := by
  constructor
  · intro h
    obtain ⟨c, hc, hcl, hm⟩ := h
    rw [← eq_of_label_eq hn hc hb hcl]
    exact hm
  · exact fun hm => ⟨b, hb, rfl, hm⟩

theorem Closed.mem_labels_of_edge {i : Implementation} (hc : i.Closed) {a b : String}
    (h : i.Edge a b) : b ∈ i.labels := by
  obtain ⟨c, hm, -, hb⟩ := h
  exact hc c hm b hb

theorem Reachable.edge {i : Implementation} {a b : String} (ha : i.Reachable a) (h : i.Edge a b) :
    i.Reachable b := by
  obtain ⟨e, he, hr⟩ := ha
  exact ⟨e, he, hr.tail h⟩

theorem Reachable.mem_labels {i : Implementation} (hc : i.Closed) {l : String}
    (h : i.Reachable l) : l ∈ i.labels := by
  obtain ⟨e, he, hr⟩ := h
  cases hr with
  | refl => exact List.mem_of_mem_head? he
  | tail _ hl => exact hc.mem_labels_of_edge hl

end Implementation

namespace FlowGraph

/-! ## Positions and labels -/

variable {i : Implementation}

theorem label_eq_of_lastWithLabel? {n : Nat} {labels : Vector String n} {l : String} {v : Fin n}
    (h : lastWithLabel? labels l = some v) : labels.get v = l := by
  simpa using List.find?_some h

theorem lastWithLabel?_isSome {n : Nat} {labels : Vector String n} (v : Fin n) :
    (lastWithLabel? labels (labels.get v)).isSome := by
  refine List.find?_isSome.mpr ⟨v, ?_, by simp⟩
  rw [List.mem_reverse]
  exact List.mem_finRange v

@[simp] theorem size_flow (i : Implementation) : i.flow.size = i.blocks.length := rfl

theorem label_flow (i : Implementation) (v : Fin i.flow.size) :
    i.flow.label v = (i.blocks.get v).label := by
  exact Vector.getElem_map Block.label v.isLt

theorem succ_flow (i : Implementation) (v : Fin i.flow.size) :
    i.flow.graph.succ v =
      ((i.blocks.get v).successors.filterMap i.flow.node?).eraseDups := by
  exact Vector.getElem_map (fun b : Block => (b.successors.filterMap i.flow.node?).eraseDups) v.isLt

theorem label_mem_labels (v : Fin i.flow.size) : i.flow.label v ∈ i.labels :=
  Implementation.mem_labels.mpr ⟨_, List.get_mem i.blocks v, (label_flow i v).symm⟩

theorem exists_label_eq {l : String} (hl : l ∈ i.labels) : ∃ v, i.flow.label v = l := by
  obtain ⟨b, hb, rfl⟩ := Implementation.mem_labels.mp hl
  obtain ⟨v, rfl⟩ := List.get_of_mem hb
  exact ⟨v, label_flow i v⟩

theorem label_injective (hn : i.labels.Nodup) {v w : Fin i.flow.size}
    (h : i.flow.label v = i.flow.label w) : v = w := by
  rw [label_flow, label_flow] at h
  have hget := Implementation.eq_of_label_eq hn (List.get_mem i.blocks v)
    (List.get_mem i.blocks w) h
  exact (List.Nodup.of_map _ hn).injective_get hget

theorem node?_eq_some_iff (hn : i.labels.Nodup) {l : String} {v : Fin i.flow.size} :
    i.flow.node? l = some v ↔ i.flow.label v = l := by
  constructor
  · exact label_eq_of_lastWithLabel?
  · rintro rfl
    have hs : (lastWithLabel? i.flow.labels (i.flow.labels.get v)).isSome :=
      lastWithLabel?_isSome v
    obtain ⟨w, hw⟩ := Option.isSome_iff_exists.mp hs
    have hwl : i.flow.label w = i.flow.label v := label_eq_of_lastWithLabel? hw
    rw [← label_injective hn hwl]
    show lastWithLabel? i.flow.labels _ = _
    rw [show i.flow.label w = i.flow.labels.get v from hwl]
    exact hw

theorem edge_graph_iff (hn : i.labels.Nodup) {v w : Fin i.flow.size} :
    i.flow.graph.Edge v w ↔ i.Edge (i.flow.label v) (i.flow.label w) := by
  rw [Digraph.Edge, succ_flow, List.mem_eraseDups, List.mem_filterMap, label_flow i v,
    Implementation.edge_iff hn (List.get_mem i.blocks v)]
  constructor
  · intro hx
    obtain ⟨t, ht, hw⟩ := hx
    rw [(node?_eq_some_iff hn).mp hw]
    exact ht
  · exact fun h => ⟨_, h, (node?_eq_some_iff hn).mpr rfl⟩

theorem mem_labels_of_edge {a b : String} (h : i.Edge a b) : a ∈ i.labels := by
  obtain ⟨c, hc, rfl, -⟩ := h
  exact Implementation.mem_labels.mpr ⟨c, hc, rfl⟩

/-- Paths along positions are paths along labels, for any relation that leads on from labels
only. -/
theorem reflTransGen_label_iff (hn : i.labels.Nodup) {P : String → String → Prop}
    {Q : Fin i.flow.size → Fin i.flow.size → Prop} (hP : ∀ a b, P a b → a ∈ i.labels)
    (hQ : ∀ u v, Q u v ↔ P (i.flow.label u) (i.flow.label v)) {v w : Fin i.flow.size} :
    Relation.ReflTransGen Q v w ↔
      Relation.ReflTransGen P (i.flow.label v) (i.flow.label w) := by
  constructor
  · exact fun h => h.lift i.flow.label fun u v => (hQ u v).mp
  · intro h
    generalize hl : i.flow.label w = l at h
    induction h generalizing w with
    | refl =>
      rw [label_injective hn hl]
    | tail _ he ih =>
      obtain ⟨u, rfl⟩ := exists_label_eq (hP _ _ he)
      exact (ih rfl).tail ((hQ u w).mpr (hl ▸ he))

theorem transGen_label_iff (hn : i.labels.Nodup) {P : String → String → Prop}
    {Q : Fin i.flow.size → Fin i.flow.size → Prop} (hP : ∀ a b, P a b → a ∈ i.labels)
    (hQ : ∀ u v, Q u v ↔ P (i.flow.label u) (i.flow.label v)) {v w : Fin i.flow.size} :
    Relation.TransGen Q v w ↔ Relation.TransGen P (i.flow.label v) (i.flow.label w) := by
  rw [Relation.TransGen.tail'_iff, Relation.TransGen.tail'_iff]
  simp only [reflTransGen_label_iff hn hP hQ, hQ]
  constructor
  · exact fun ⟨u, hu⟩ => ⟨_, hu⟩
  · intro hx
    obtain ⟨l, hl, he⟩ := hx
    obtain ⟨u, rfl⟩ := exists_label_eq (hP _ _ he)
    exact ⟨u, hl, he⟩

theorem reaches_graph_iff (hn : i.labels.Nodup) {v w : Fin i.flow.size} :
    i.flow.graph.Reaches v w ↔ Relation.ReflTransGen i.Edge (i.flow.label v) (i.flow.label w) :=
  reflTransGen_label_iff (P := i.Edge) (Q := i.flow.graph.Edge) hn
    (fun _ _ => mem_labels_of_edge) fun _ _ => edge_graph_iff hn

theorem entry?_flow (i : Implementation) :
    (Digraph.entry? i.flow.size).map i.flow.label = i.entryLabel? := by
  unfold Digraph.entry?
  by_cases h : 0 < i.flow.size
  · rw [dif_pos h, Option.map_some, label_flow, Implementation.entryLabel?, Implementation.labels,
      List.head?_map, List.head?_eq_getElem?, List.getElem?_eq_getElem h]
    rfl
  · have hb : i.blocks = [] := by
      rw [size_flow] at h
      exact List.eq_nil_of_length_eq_zero (by omega)
    rw [dif_neg h, Option.map_none]
    simp [Implementation.entryLabel?, Implementation.labels, hb]

end FlowGraph

namespace Implementation

variable {i : Implementation}

/-- The position of a label is reachable exactly if jumps lead to the label from the entry. -/
theorem reachable_dominance_flow_iff (hn : i.labels.Nodup) (v : Fin i.flow.size) :
    i.flow.dominance.reachable v = true ↔ i.Reachable (i.flow.label v) := by
  rw [i.flow.dominance_eq, Digraph.reachable_dominance_iff]
  constructor
  · intro hx
    obtain ⟨r, he, hr⟩ := hx
    refine ⟨i.flow.label r, ?_, (FlowGraph.reaches_graph_iff hn).mp hr⟩
    rw [← FlowGraph.entry?_flow, he, Option.map_some]
  · intro hx
    obtain ⟨e, he, hr⟩ := hx
    rw [← FlowGraph.entry?_flow, Option.map_eq_some_iff] at he
    obtain ⟨r, he, rfl⟩ := he
    exact ⟨r, he, (FlowGraph.reaches_graph_iff hn).mpr hr⟩

theorem reachable_flow_iff_of_mem (hn : i.labels.Nodup) {l : String} (hl : l ∈ i.labels) :
    i.flow.reachable l = true ↔ i.Reachable l := by
  obtain ⟨v, rfl⟩ := FlowGraph.exists_label_eq hl
  rw [FlowGraph.reachable, (FlowGraph.node?_eq_some_iff hn).mpr rfl, Option.any_some,
    reachable_dominance_flow_iff hn]

/-- **A label is reachable in the flow graph exactly if jumps lead to it from the entry.** -/
theorem reachable_flow_iff (hn : i.labels.Nodup) (hc : i.Closed) {l : String} :
    i.flow.reachable l = true ↔ i.Reachable l := by
  constructor
  · intro h
    rw [FlowGraph.reachable, Option.any_eq_true] at h
    obtain ⟨v, hv, hr⟩ := h
    rw [FlowGraph.node?_eq_some_iff hn] at hv
    exact hv ▸ (reachable_dominance_flow_iff hn v).mp hr
  · exact fun h => (reachable_flow_iff_of_mem hn (h.mem_labels hc)).mpr h

/-! ## Pruning -/

theorem mem_blocks_prune_iff (hn : i.labels.Nodup) {b : Block} :
    b ∈ i.prune.blocks ↔ b ∈ i.blocks ∧ i.Reachable b.label := by
  show b ∈ i.blocks.filter _ ↔ _
  rw [List.mem_filter]
  exact and_congr_right fun hb => reachable_flow_iff_of_mem hn (mem_labels.mpr ⟨b, hb, rfl⟩)

theorem mem_labels_prune_iff (hn : i.labels.Nodup) (hc : i.Closed) {l : String} :
    l ∈ i.prune.labels ↔ i.Reachable l := by
  rw [mem_labels]
  constructor
  · intro hx
    obtain ⟨b, hb, rfl⟩ := hx
    exact ((mem_blocks_prune_iff hn).mp hb).2
  · intro h
    obtain ⟨b, hb, rfl⟩ := mem_labels.mp (h.mem_labels hc)
    exact ⟨b, (mem_blocks_prune_iff hn).mpr ⟨hb, h⟩, rfl⟩

theorem edge_prune_iff (hn : i.labels.Nodup) {a b : String} :
    i.prune.Edge a b ↔ i.Edge a b ∧ i.Reachable a := by
  constructor
  · intro hx
    obtain ⟨c, hcb, rfl, hb⟩ := hx
    obtain ⟨hcb, hr⟩ := (mem_blocks_prune_iff hn).mp hcb
    exact ⟨⟨c, hcb, rfl, hb⟩, hr⟩
  · intro hx
    obtain ⟨⟨c, hcb, rfl, hb⟩, hr⟩ := hx
    exact ⟨c, (mem_blocks_prune_iff hn).mpr ⟨hcb, hr⟩, rfl, hb⟩

theorem labels_prune_sublist (i : Implementation) : i.prune.labels.Sublist i.labels :=
  List.filter_sublist.map _

theorem closed_prune (hn : i.labels.Nodup) (hc : i.Closed) : i.prune.Closed := by
  intro b hb t ht
  obtain ⟨hb, hr⟩ := (mem_blocks_prune_iff hn).mp hb
  exact (mem_labels_prune_iff hn hc).mpr (hr.edge ⟨b, hb, rfl, ht⟩)

theorem entryLabel?_prune (hn : i.labels.Nodup) : i.prune.entryLabel? = i.entryLabel? := by
  cases hb : i.blocks with
  | nil => simp [entryLabel?, labels, prune, hb]
  | cons b bs =>
    have he : i.entryLabel? = some b.label := by simp [entryLabel?, labels, hb]
    have hr : i.flow.reachable b.label = true :=
      (reachable_flow_iff_of_mem hn (List.mem_of_mem_head? he)).mpr ⟨b.label, he, .refl⟩
    rw [he]
    simp [entryLabel?, labels, prune, hb, hr]

/-- What jumps lead to they lead to after pruning. -/
theorem reachable_prune (hn : i.labels.Nodup) {l : String} (h : i.Reachable l) :
    i.prune.Reachable l := by
  obtain ⟨e, he, hr⟩ := h
  refine ⟨e, (entryLabel?_prune hn).trans he, ?_⟩
  induction hr with
  | refl => exact .refl
  | tail hr hlm ih =>
    obtain ⟨b, hb, rfl, hm⟩ := hlm
    exact ih.tail ⟨b, (mem_blocks_prune_iff hn).mpr ⟨hb, e, he, hr⟩, rfl, hm⟩

end Implementation

namespace FlowGraph

variable {i : Implementation}

/-! ## Predecessors and loops -/

theorem mem_predecessors_iff (hn : i.labels.Nodup) {a h : String} (hh : h ∈ i.labels) :
    a ∈ i.flow.predecessors h ↔ i.Edge a h := by
  obtain ⟨w, rfl⟩ := exists_label_eq hh
  have hw : i.flow.node? (i.flow.label w) = some w := (node?_eq_some_iff hn).mpr rfl
  rw [predecessors, labelsFrom, hw, Option.map_some, Option.getD_some, List.mem_map]
  constructor
  · intro hx
    obtain ⟨v, hv, rfl⟩ := hx
    exact (edge_graph_iff hn).mp (Digraph.mem_pred.mp hv)
  · intro he
    obtain ⟨v, rfl⟩ := exists_label_eq (mem_labels_of_edge he)
    exact ⟨v, Digraph.mem_pred.mpr ((edge_graph_iff hn).mpr he), rfl⟩

theorem nodup_predecessors (hn : i.labels.Nodup) (l : String) : (i.flow.predecessors l).Nodup := by
  rw [predecessors, labelsFrom]
  cases i.flow.node? l with
  | none => exact List.nodup_nil
  | some v =>
    rw [Option.map_some, Option.getD_some]
    exact (Digraph.pred_nodup _ v).map fun _ _ h => label_injective hn h

theorem mem_blocksInLoops_iff (g : FlowGraph) {headers : List String} {l : String} :
    l ∈ g.blocksInLoops headers ↔
      ∃ h ∈ headers, ∃ s, (s, h) ∈ g.backEdges ∧ l ∈ g.naturalLoop h s := by
  simp only [blocksInLoops, List.mem_eraseDups, List.mem_flatMap, List.mem_filter,
    decide_eq_true_eq]
  constructor
  · intro hx
    obtain ⟨h, hh, e, ⟨he, rfl⟩, hl⟩ := hx
    exact ⟨e.2, hh, e.1, he, hl⟩
  · intro hx
    obtain ⟨h, hh, s, hs, hl⟩ := hx
    exact ⟨h, hh, (s, h), ⟨hs, rfl⟩, hl⟩

/-- A block that jumps into a loop other than to its header belongs to the loop. -/
theorem mem_blocksInLoops_of_edge (hn : i.labels.Nodup) {headers : List String} {a b : String}
    (hb : b ∈ i.flow.blocksInLoops headers) (hh : b ∉ headers) (he : i.Edge a b) :
    a ∈ i.flow.blocksInLoops headers := by
  rw [mem_blocksInLoops_iff] at hb ⊢
  obtain ⟨h, hhm, s, hs, hl⟩ := hb
  refine ⟨h, hhm, s, hs, ?_⟩
  have hbh : b ≠ h := fun e => hh (e ▸ hhm)
  rw [naturalLoop] at hl ⊢
  split at hl
  · rename_i vh vs hvh hvs
    rw [List.mem_eraseDups, List.mem_map] at hl ⊢
    obtain ⟨v, hv, rfl⟩ := hl
    obtain ⟨u, rfl⟩ := exists_label_eq (mem_labels_of_edge he)
    have hne : v ≠ vh := by
      rintro rfl
      exact hbh ((node?_eq_some_iff hn).mp hvh)
    exact ⟨u, Digraph.mem_naturalLoop_of_pred hv hne
      (Digraph.mem_pred.mpr ((edge_graph_iff hn).mpr he)), rfl⟩
  · simp at hl

/-! ## What the graph depends on -/

/-- The flow graph of labels and the labels that each of them jumps to. -/
def ofJumps {n : Nat} (labels : Vector String n) (targets : Vector (List String) n) :
    FlowGraph where
  size := n
  labels
  graph := { succs := targets.map fun ts => (ts.filterMap (lastWithLabel? labels)).eraseDups }

theorem ofBlocks_eq_ofJumps (bs : List Block) (labels : Vector String bs.length)
    (targets : Vector (List String) bs.length) (hl : labels.toArray = (bs.map Block.label).toArray)
    (ht : targets.toArray = (bs.map Block.successors).toArray) :
    ofBlocks bs = ofJumps labels targets := by
  let nodes : Vector Block bs.length := ⟨bs.toArray, by simp⟩
  obtain rfl : labels = nodes.map Block.label := by simpa [← Vector.toArray_inj, nodes] using hl
  obtain rfl : targets = nodes.map Block.successors := by
    simpa [← Vector.toArray_inj, nodes] using ht
  simp only [ofJumps, Vector.map_map]
  rfl

/-- **The flow graph depends on labels and jumps only.** -/
theorem ofBlocks_congr {as bs : List Block} (hl : as.map Block.label = bs.map Block.label)
    (hs : as.map Block.successors = bs.map Block.successors) : ofBlocks as = ofBlocks bs := by
  have hn : as.length = bs.length := by simpa using congrArg List.length hl
  have heq : ∀ {m n : Nat} {labels : Vector String m} {labels' : Vector String n}
      {targets : Vector (List String) m} {targets' : Vector (List String) n}, m = n →
      labels.toArray = labels'.toArray → targets.toArray = targets'.toArray →
      ofJumps labels targets = ofJumps labels' targets' := by
    intro m n labels labels' targets targets' hmn hlabels htargets
    subst hmn
    rw [Vector.toArray_inj.mp hlabels, Vector.toArray_inj.mp htargets]
  rw [ofBlocks_eq_ofJumps as ⟨(as.map Block.label).toArray, by simp⟩
      ⟨(as.map Block.successors).toArray, by simp⟩ rfl rfl,
    ofBlocks_eq_ofJumps bs ⟨(bs.map Block.label).toArray, by simp⟩
      ⟨(bs.map Block.successors).toArray, by simp⟩ rfl rfl]
  exact heq hn (congrArg List.toArray hl) (congrArg List.toArray hs)

end FlowGraph

end LayerCheck
