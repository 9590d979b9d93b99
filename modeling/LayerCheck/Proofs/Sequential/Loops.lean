import LayerCheck.Proofs.Digraph.Subdivision
import LayerCheck.Proofs.Flow.Loops
import LayerCheck.Proofs.Sequential.Base

/-!
# Splitting and loops

Splitting subdivides the flow graph: a block becomes a chain, jumps to the block lead to the first
block of the chain, and its own jumps leave from the last.  So the analyses of loops say the same of
the split blocks as of the blocks that they come from, and a preemption point is inside of a yielding
loop if its block was.

* `Cut.Linked.inner`, `Cut.Linked.eq_of_successor`: how a chain hangs together.
* `Implementation.subdivision_split`: splitting subdivides.
* `Sequential.loops_split`: what the analyses say before and after splitting.
-/

namespace LayerCheck

namespace Cut

variable {j : Implementation} {t : Transfer} {V : String → Prop} {b c : Block} {bs : List Block}
  {l : String}

/-! ## Inside of a chain -/

theorem chain_ne_nil (s : Cut) : s.chain ≠ [] := List.cons_ne_nil _ _

theorem Linked.inner (h : Linked t (b :: bs)) (hj : ∀ c ∈ b :: bs, c ∈ j.blocks)
    (hV : ∀ c ∈ bs, ¬ V c.label) (hc : c ∈ b :: bs) :
    Relation.ReflTransGen (Inner V j.Edge) b.label c.label := by
  refine Relation.ReflTransGen.mono (fun u v he => ⟨he.1, ?_⟩) _ _ (h.path hj hc)
  obtain ⟨d, hd, rfl⟩ := List.mem_map.mp he.2
  exact hV d hd

theorem Linked.inner_last (h : Linked t (b :: bs)) (hj : ∀ c ∈ b :: bs, c ∈ j.blocks)
    (hV : ∀ c ∈ bs, ¬ V c.label) (hc : c ∈ b :: bs) :
    Relation.ReflTransGen (Inner V j.Edge) c.label
      ((b :: bs).getLast (List.cons_ne_nil b bs)).label := by
  induction bs generalizing b with
  | nil =>
    rw [List.mem_singleton.mp hc]
    exact .refl
  | cons d bs ih =>
    rcases List.mem_cons.mp hc with rfl | hc
    · exact h.inner hj hV (List.getLast_mem _)
    · rw [List.getLast_cons (List.cons_ne_nil d bs)]
      exact ih h.2 (fun c hc => hj c (List.mem_cons_of_mem _ hc))
        (fun c hc => hV c (List.mem_cons_of_mem _ hc)) hc

/-- Inside of a chain there is one jump to each block. -/
theorem Linked.eq_of_successor (h : Linked t bs) (hn : (bs.map Block.label).Nodup) (hb : b ∈ bs)
    (hc : c ∈ bs) (hbl : l ∈ b.successors) (hcl : l ∈ c.successors) (ht : l ∉ t.targets) :
    b = c := by
  induction bs with
  | nil => exact absurd hb List.not_mem_nil
  | cons d bs ih =>
    cases bs with
    | nil => rw [List.mem_singleton.mp hb, List.mem_singleton.mp hc]
    | cons f bs =>
      rw [List.map_cons, List.nodup_cons] at hn
      -- a later block does not jump to the one behind the first
      have hlater : ∀ {a}, a ∈ f :: bs → l ∈ a.successors → l ∉ d.successors := by
        intro a ha hal hdl
        rw [Block.successors, h.1] at hdl
        rw [List.mem_singleton.mp hdl] at hal ht
        have hm := (h.2.mem_of_mem_successors ha hal).resolve_left ht
        exact (List.nodup_cons.mp hn.2).1 hm
      rcases List.mem_cons.mp hb with hbd | hb'
      · rcases List.mem_cons.mp hc with hcd | hc'
        · exact hbd.trans hcd.symm
        · exact absurd (hbd ▸ hbl) (hlater hc' hcl)
      · rcases List.mem_cons.mp hc with hcd | hc'
        · exact absurd (hcd ▸ hcl) (hlater hb' hbl)
        · exact ih h.2 hn.2 hb' hc'

end Cut

namespace Implementation

variable {i : Implementation} {others : List String} {a b l x : String} {s : Cut}

/-! ## The chains of a split implementation -/

/-- The label of the last block of the chain that a block has become. -/
def lastLabel (i : Implementation) (others : List String) (l : String) : String :=
  (i.chainLabels others l).getLastD l

theorem mem_chainLabels_iff (hn : i.labels.Nodup) :
    x ∈ i.chainLabels others a ↔
      ∃ s ∈ i.cuts others, s.block.label = a ∧ ∃ c ∈ s.chain, c.label = x := by
  constructor
  · intro hx
    cases hf : (i.cuts others).find? (·.block.label == a) with
    | none =>
      rw [chainLabels, hf] at hx
      exact absurd hx List.not_mem_nil
    | some s =>
      rw [chainLabels, hf] at hx
      exact ⟨s, List.mem_of_find?_eq_some hf, by simpa using List.find?_some hf,
        List.mem_map.mp hx⟩
  · intro hx
    obtain ⟨s, hs, rfl, hc⟩ := hx
    rw [chainLabels_of_mem hn hs]
    exact List.mem_map.mpr hc

theorem lastLabel_eq (hn : i.labels.Nodup) (hs : s ∈ i.cuts others) :
    i.lastLabel others s.block.label = (s.chain.getLast s.chain_ne_nil).label := by
  rw [lastLabel, chainLabels_of_mem hn hs, List.getLastD_eq_getLast?, List.getLast?_map,
    List.getLast?_eq_some_getLast s.chain_ne_nil]
  rfl

theorem nodup_labels_chain (hs : s ∈ i.cuts others) : (s.chain.map Block.label).Nodup := by
  have hp := (Block.nodup_labels_cuts (i.labels ++ others) i.blocks).1
  rw [List.map_flatMap, List.nodup_flatMap] at hp
  rw [Cut.chain, List.map_cons, List.map_reverse, List.nodup_cons, List.nodup_reverse,
    List.mem_reverse]
  refine ⟨fun hm => ?_, hp.1 s hs⟩
  obtain ⟨p, hps, hl⟩ := List.mem_map.mp hm
  exact label_notMem_of_mem_pieces hs hps (hl ▸ mem_labels_of_mem_cuts hs)

theorem cut_eq_of_label_eq (hn : i.labels.Nodup) {s t : Cut} {c d : Block}
    (hs : s ∈ i.cuts others) (ht : t ∈ i.cuts others) (hc : c ∈ s.chain) (hd : d ∈ t.chain)
    (h : c.label = d.label) : s = t :=
  List.inj_on_of_nodup_map (map_label_cuts i others ▸ hn) hs ht
    (label_eq_of_mem_chain hs ht hc hd h)

/-- A jump to a label that splitting has brought about stays in its chain. -/
theorem exists_mem_chain_of_mem_successors (hc : i.Closed) {s : Cut} (hs : s ∈ i.cuts others)
    {c : Block} (hcs : c ∈ s.chain) (hl : l ∈ c.successors) (hnew : l ∉ i.labels) :
    ∃ d ∈ s.chain, d.label = l := by
  obtain ⟨b, hb, hsb⟩ := spells_of_mem_cuts hs
  have hm := (hsb.linked.eq_getLast_or hcs hl).resolve_left fun h => hnew (hc b hb l h.2)
  obtain ⟨d, hd, hdl⟩ := List.mem_map.mp hm
  exact ⟨d, List.mem_cons_of_mem _ hd, hdl⟩

/-- **Splitting subdivides the jumps of an implementation.** -/
theorem subdivision_split (hn : i.labels.Nodup) (hc : i.Closed) (others : List String) :
    Subdivision (· ∈ i.labels) i.Edge (i.split others).Edge
      (fun a x => x ∈ i.chainLabels others a) (i.lastLabel others) := by
  have hpieces : ∀ {s : Cut}, s ∈ i.cuts others → ∀ p ∈ s.pieces.reverse, p.label ∉ i.labels :=
    fun hs p hp => label_notMem_of_mem_pieces hs (List.mem_reverse.mp hp)
  constructor
  case closed => exact fun he => ⟨FlowGraph.mem_labels_of_edge he, hc.mem_labels_of_edge he⟩
  case self =>
    intro a ha
    obtain ⟨s, hs, rfl⟩ := exists_cut_of_mem_labels ha others
    exact (mem_chainLabels_iff hn).mpr ⟨s, hs, rfl, s.block, List.mem_cons_self, rfl⟩
  case whole =>
    intro a x hx
    obtain ⟨s, hs, rfl, -⟩ := (mem_chainLabels_iff hn).mp hx
    exact mem_labels_of_mem_cuts hs
  case eq_of_mem =>
    intro a x hl hx
    obtain ⟨s, hs, rfl, c, hcs, rfl⟩ := (mem_chainLabels_iff hn).mp hx
    rcases List.mem_cons.mp hcs with rfl | hp
    · rfl
    · exact absurd hl (hpieces hs c hp)
  case unique =>
    intro a b x ha hb
    obtain ⟨s, hs, rfl, c, hcs, rfl⟩ := (mem_chainLabels_iff hn).mp ha
    obtain ⟨t, ht, rfl, d, hdt, hd⟩ := (mem_chainLabels_iff hn).mp hb
    rw [cut_eq_of_label_eq hn hs ht hcs hdt hd.symm]
  case part_last =>
    intro a ha
    obtain ⟨s, hs, rfl⟩ := exists_cut_of_mem_labels ha others
    rw [lastLabel_eq hn hs]
    exact (mem_chainLabels_iff hn).mpr ⟨s, hs, rfl, _, List.getLast_mem _, rfl⟩
  case edge =>
    intro u v huv
    obtain ⟨c, hcb, rfl, hv⟩ := huv
    obtain ⟨s, hs, hcs⟩ := mem_blocks_split_iff.mp hcb
    obtain ⟨d, hd, hsd⟩ := spells_of_mem_cuts hs
    refine ⟨s.block.label, (mem_chainLabels_iff hn).mpr ⟨s, hs, rfl, c, hcs, rfl⟩, ?_⟩
    rcases hsd.linked.eq_getLast_or hcs hv with ⟨rfl, ht⟩ | hm
    · refine .inl ⟨hc d hd v ht, (lastLabel_eq hn hs).symm, ?_⟩
      rw [hsd.label]
      exact ⟨d, hd, rfl, ht⟩
    · obtain ⟨p, hp, rfl⟩ := List.mem_map.mp hm
      exact .inr ⟨hpieces hs p hp,
        (mem_chainLabels_iff hn).mpr ⟨s, hs, rfl, p, List.mem_cons_of_mem _ hp, rfl⟩⟩
  case exit =>
    intro a t hat
    obtain ⟨d, hd, rfl, ht⟩ := hat
    obtain ⟨s, hs, hsd⟩ := exists_mem_cuts hd others
    rw [← hsd.label, lastLabel_eq hn hs]
    refine ⟨_, mem_blocks_of_mem_chain hs _ (List.getLast_mem _), rfl, ?_⟩
    rw [Block.successors, show (s.chain.getLast _).transfer = _ from hsd.linked.transfer_getLast]
    exact ht
  case enter =>
    intro a x hx
    obtain ⟨s, hs, rfl, c, hcs, rfl⟩ := (mem_chainLabels_iff hn).mp hx
    obtain ⟨d, -, hsd⟩ := spells_of_mem_cuts hs
    exact hsd.linked.inner (mem_blocks_of_mem_chain hs) (hpieces hs) hcs
  case leave =>
    intro a x hx
    obtain ⟨s, hs, rfl, c, hcs, rfl⟩ := (mem_chainLabels_iff hn).mp hx
    obtain ⟨d, -, hsd⟩ := spells_of_mem_cuts hs
    rw [lastLabel_eq hn hs]
    exact hsd.linked.inner_last (mem_blocks_of_mem_chain hs) (hpieces hs) hcs
  case once =>
    intro u w p hu hw hp
    obtain ⟨c, hcb, rfl, hcp⟩ := hu
    obtain ⟨d, hdb, rfl, hdp⟩ := hw
    obtain ⟨s, hs, hcs⟩ := mem_blocks_split_iff.mp hcb
    obtain ⟨t, ht, hdt⟩ := mem_blocks_split_iff.mp hdb
    obtain ⟨x, hx, hxp⟩ := exists_mem_chain_of_mem_successors hc hs hcs hcp hp
    obtain ⟨y, hy, hyp⟩ := exists_mem_chain_of_mem_successors hc ht hdt hdp hp
    obtain rfl := cut_eq_of_label_eq hn hs ht hx hy (hxp.trans hyp.symm)
    obtain ⟨f, hf, hsf⟩ := spells_of_mem_cuts hs
    rw [hsf.linked.eq_of_successor (nodup_labels_chain hs) hcs hdt hcp hdp
      fun h => hp (hc f hf p h)]

/-! ## What the analyses say before and after splitting -/

theorem exists_entryLabel? (hl : l ∈ i.labels) : ∃ e, i.entryLabel? = some e := by
  cases hi : i.labels with
  | nil => exact absurd (hi ▸ hl) List.not_mem_nil
  | cons e es => exact ⟨e, by rw [entryLabel?, hi, List.head?_cons]⟩

theorem split_eq_self (hb : i.blocks = []) (others : List String) : i.split others = i := by
  obtain ⟨name, procedure, typeParams, inputs, outputs, locals, blocks, attributes⟩ := i
  obtain rfl : blocks = [] := hb
  rfl

theorem eq_nil_of_entryLabel?_eq_none (he : i.entryLabel? = none) : i.blocks = [] := by
  rw [entryLabel?, List.head?_eq_none_iff, labels, List.map_eq_nil_iff] at he
  exact he

/-- Every block of a split implementation comes from a block. -/
theorem exists_mem_chainLabels (hn : i.labels.Nodup) (hl : l ∈ (i.split others).labels) :
    ∃ b ∈ i.labels, l ∈ i.chainLabels others b := by
  obtain ⟨c, hc, rfl⟩ := mem_labels.mp hl
  obtain ⟨s, hs, hcs⟩ := mem_blocks_split_iff.mp hc
  exact ⟨s.block.label, mem_labels_of_mem_cuts hs,
    (mem_chainLabels_iff hn).mpr ⟨s, hs, rfl, c, hcs, rfl⟩⟩

section

variable (hn : i.labels.Nodup) (hc : i.Closed)
include hn hc

theorem reaches_split_iff {e : String} (he : i.entryLabel? = some e)
    (hl : l ∈ i.chainLabels others b) :
    Relation.ReflTransGen (i.split others).Edge e l ↔ Relation.ReflTransGen i.Edge e b :=
  (subdivision_split hn hc others).reaches_iff (List.mem_of_mem_head? he) hl

theorem reachable_flow_split (ha : a ∈ i.labels) :
    (i.split others).flow.reachable a = i.flow.reachable a := by
  obtain ⟨e, he⟩ := exists_entryLabel? ha
  have hself := (subdivision_split hn hc others).self ha
  rw [Bool.eq_iff_iff, reachable_flow_iff hn hc,
    reachable_flow_iff (nodup_labels_split hn others) (closed_split hc others), reachable_iff he,
    reachable_iff ((entryLabel?_split i others).trans he)]
  exact reaches_split_iff hn hc he hself

theorem dominates_flow_split (ha : a ∈ i.labels) (hb : b ∈ i.labels) :
    (i.split others).flow.dominates a b = i.flow.dominates a b := by
  obtain ⟨e, he⟩ := exists_entryLabel? ha
  have hs := subdivision_split hn hc others
  have hje := (entryLabel?_split i others).trans he
  have hj := nodup_labels_split hn others
  have hsub : ∀ l ∈ i.labels, l ∈ (i.split others).labels := by
    intro l hl
    rw [labels_split]
    exact List.mem_append_left _ hl
  have hiff := reaches_split_iff hn hc he (hs.self hb)
  rw [Bool.eq_iff_iff]
  by_cases hr : Relation.ReflTransGen i.Edge e b
  · rw [FlowGraph.dominates_iff hn he ha hb hr, FlowGraph.dominates_iff hj hje (hsub a ha)
      (hsub b hb) (hiff.mpr hr)]
    exact hs.dominates_iff (List.mem_of_mem_head? he) ha (hs.self hb)
  · rw [FlowGraph.dominates_iff_eq hn he ha hb (.inr hr), FlowGraph.dominates_iff_eq hj hje
      (hsub a ha) (hsub b hb) (.inr fun h => hr (hiff.mp h))]

theorem isReducible_flow_split :
    (i.split others).flow.isReducible = i.flow.isReducible := by
  cases he : i.entryLabel? with
  | none => rw [split_eq_self (eq_nil_of_entryLabel?_eq_none he)]
  | some e =>
    rw [Bool.eq_iff_iff, FlowGraph.isReducible_iff hn he, FlowGraph.isReducible_iff
      (nodup_labels_split hn others) ((entryLabel?_split i others).trans he)]
    exact (subdivision_split hn hc others).acyclic_iff (List.mem_of_mem_head? he)

theorem mem_loopHeaders_split_iff :
    l ∈ (i.split others).flow.loopHeaders ↔ l ∈ i.flow.loopHeaders := by
  cases he : i.entryLabel? with
  | none => rw [split_eq_self (eq_nil_of_entryLabel?_eq_none he)]
  | some e =>
    rw [FlowGraph.mem_loopHeaders_iff hn he, FlowGraph.mem_loopHeaders_iff
      (nodup_labels_split hn others) ((entryLabel?_split i others).trans he)]
    simp only [(subdivision_split hn hc others).backEdge_iff (List.mem_of_mem_head? he)]
    exact ⟨fun ⟨_, b, _, hb⟩ => ⟨b, hb⟩, fun ⟨b, hb⟩ => ⟨_, b, rfl, hb⟩⟩

/-- A piece is entered from inside of its chain only, so that it heads no loop. -/
theorem notMem_loopHeaders_split (hl : l ∈ i.chainLabels others b) (hlb : l ≠ b) :
    l ∉ (i.split others).flow.loopHeaders := by
  intro hh
  have hsub := subdivision_split hn hc others
  obtain ⟨e, he⟩ := exists_entryLabel? (hsub.whole hl)
  obtain ⟨s, hs⟩ := (FlowGraph.mem_loopHeaders_iff hn he).mp
    ((mem_loopHeaders_split_iff hn hc).mp hh)
  exact hlb (hsub.eq_of_mem (FlowGraph.mem_labels_of_backEdge hs).2 hl).symm

/-- **A piece of a block is in a loop if the block is.** -/
theorem mem_blocksInLoops_split_iff {hs : List String} (hl : l ∈ i.chainLabels others b) :
    l ∈ (i.split others).flow.blocksInLoops hs ↔ b ∈ i.flow.blocksInLoops hs := by
  have hsub := subdivision_split hn hc others
  obtain ⟨e, he⟩ := exists_entryLabel? (hsub.whole hl)
  rw [FlowGraph.mem_blocksInLoops_iff_inLoop hn he, FlowGraph.mem_blocksInLoops_iff_inLoop
    (nodup_labels_split hn others) ((entryLabel?_split i others).trans he)]
  simp only [hsub.backEdge_iff (List.mem_of_mem_head? he)]
  constructor
  · intro hx
    obtain ⟨h, hh, _, ⟨s, rfl, hb⟩, hin⟩ := hx
    exact ⟨h, hh, s, hb, (hsub.inLoop_iff hb hl).mp hin⟩
  · intro hx
    obtain ⟨h, hh, s, hb, hin⟩ := hx
    exact ⟨h, hh, _, ⟨s, rfl, hb⟩, (hsub.inLoop_iff hb hl).mpr hin⟩

end

end Implementation

namespace Sequential

variable {q : Sequential} {b : Block} {l : String}

/-! ## Yielding loops -/

/-- The labels of the chain that a block of the copy has become. -/
def chainLabels (q : Sequential) (l : String) : List String :=
  q.assumed.chainLabels q.preparedLabels l

/-- The blocks of the copy that head a yielding loop of the layer. -/
def sourceHeaders (q : Sequential) : List String :=
  q.source.labels.filter fun l => (q.loop? l).isSome

/-- **A block of the base is in a yielding loop if the block that it comes from is.** -/
theorem mem_inLoops_iff (hn : q.source.labels.Nodup) (hc : q.source.Closed)
    (hb : b ∈ q.base.blocks) (hl : b.label ∈ q.chainLabels l) :
    b.label ∈ q.inLoops ↔ l ∈ q.source.flow.blocksInLoops q.sourceHeaders := by
  have hna : q.assumed.labels.Nodup := by
    rw [q.labels_assumed]
    exact hn
  have hca : q.assumed.Closed := Implementation.closed_withDisjointness _ _ _ hc
  have hns := Implementation.nodup_labels_split hna q.preparedLabels
  have hcs := Implementation.closed_split hca q.preparedLabels
  obtain ⟨e, he⟩ := Implementation.exists_entryLabel?
    ((Implementation.subdivision_split hna hca q.preparedLabels).whole hl)
  have hes := (Implementation.entryLabel?_split q.assumed q.preparedLabels).trans he
  have heq := q.entryLabel?_assumed.symm.trans he
  have hmem : ∀ {m}, m ∈ q.base.labels ↔ (q.assumed.split q.preparedLabels).Reachable m := by
    intro m
    rw [q.base_eq]
    exact Implementation.mem_labels_prune_iff hns hcs
  have hreach : Relation.ReflTransGen (q.assumed.split q.preparedLabels).Edge e b.label :=
    (Implementation.reachable_iff hes).mp
      (hmem.mp (Implementation.mem_labels.mpr ⟨b, hb, rfl⟩))
  -- a loop header of the copy is reachable, so it is a block of the base as well
  have hheaders : ∀ h ∈ q.assumed.flow.loopHeaders, h ∈ q.headers ↔ h ∈ q.sourceHeaders := by
    intro h hh
    obtain ⟨s, hs⟩ := (FlowGraph.mem_loopHeaders_iff hna he).mp hh
    have hlabel := (FlowGraph.mem_labels_of_backEdge hs).2
    have hr := (Implementation.reaches_split_iff hna hca he
      ((Implementation.subdivision_split hna hca q.preparedLabels).self hlabel)).mpr
        (hs.1.tail hs.2.1)
    have hbase := hmem.mpr ((Implementation.reachable_iff hes).mpr hr)
    rw [q.labels_assumed] at hlabel
    rw [headers, sourceHeaders, List.mem_filter, List.mem_filter]
    exact and_congr_left fun _ => iff_of_true hbase hlabel
  calc b.label ∈ q.inLoops
      ↔ b.label ∈ (q.assumed.split q.preparedLabels).prune.flow.blocksInLoops q.headers := by
        rw [inLoops, q.base_eq]
    _ ↔ b.label ∈ (q.assumed.split q.preparedLabels).flow.blocksInLoops q.headers :=
        (FlowGraph.mem_blocksInLoops_prune_iff hns hes).trans (and_iff_left hreach)
    _ ↔ l ∈ q.assumed.flow.blocksInLoops q.headers :=
        Implementation.mem_blocksInLoops_split_iff hna hca hl
    _ ↔ l ∈ q.assumed.flow.blocksInLoops q.sourceHeaders :=
        FlowGraph.mem_blocksInLoops_of_headers hna he hheaders
    _ ↔ l ∈ q.source.flow.blocksInLoops q.sourceHeaders :=
        FlowGraph.mem_blocksInLoops_congr hn hna heq he
          fun _ _ => Implementation.edge_withDisjointness_iff _ _ _

/-- A preemption point of the base is met at the head of its block. -/
theorem preemption?_of_mem (hb : b ∈ q.base.blocks) {m : Command} (hm : m ∈ b.commands)
    (hp : m.isPreemption = true) : b.preemption? = some m := by
  rcases of_mem_commands_base hb with ⟨-, hplain⟩ | ⟨-, c, rest, hc, -, hplain⟩
  · rw [hplain m hm] at hp
    cases hp
  · rw [hc] at hm
    rcases List.mem_cons.mp hm with rfl | hr
    · rw [Block.preemption?, Block.head?, hc, List.head?_cons, Option.filter_some, if_pos hp]
    · rw [hplain m hr] at hp
      cases hp

/-- A preemption point of the base is one of the block that its block comes from. -/
theorem exists_source_of_preemption (hn : q.source.labels.Nodup) (hb : b ∈ q.base.blocks)
    {m : Command} (hm : m ∈ b.commands) (hp : m.isPreemption = true) :
    ∃ d ∈ q.source.blocks, m ∈ d.commands ∧ b.label ∈ q.chainLabels d.label := by
  have hpred : m.isPredicate = false := by
    cases h : m.isPredicate with
    | true => rw [Command.isPreemption_of_isPredicate h] at hp; cases hp
    | false => rfl
  obtain ⟨s, hs, hbs, d, hd, hsd, hmd⟩ := exists_of_mem_commands_base hb hm hpred
  refine ⟨d, hd, hmd, ?_⟩
  have hna : q.assumed.labels.Nodup := by
    rw [q.labels_assumed]
    exact hn
  exact (Implementation.mem_chainLabels_iff hna).mpr ⟨s, hs, hsd, b, hbs, rfl⟩

/-- **Splitting commutes with the analysis of loops.**  For the blocks of an implementation,
reachability, dominance, reducibility and loop headers are the same after splitting as before, no
piece becomes a header, and a piece is in the loops of any headers exactly if the block that it was
cut from is.  So a preemption point of a copy counts as inside of a yielding loop exactly if its
block is in a natural loop of a block that heads a yielding loop of the layer. -/
theorem loops_split {i : Implementation} (hn : i.labels.Nodup) (hc : i.Closed) :
    (∀ others : List String,
      (∀ a ∈ i.labels, (i.split others).flow.reachable a = i.flow.reachable a) ∧
      (∀ a ∈ i.labels, ∀ b ∈ i.labels,
        (i.split others).flow.dominates a b = i.flow.dominates a b) ∧
      (i.split others).flow.isReducible = i.flow.isReducible ∧
      (∀ h, h ∈ (i.split others).flow.loopHeaders ↔ h ∈ i.flow.loopHeaders) ∧
      (∀ l ∈ (i.split others).labels, ∃ b ∈ i.labels, l ∈ i.chainLabels others b) ∧
      ∀ b ∈ i.labels, b ∈ i.chainLabels others b ∧
        ∀ l ∈ i.chainLabels others b, (l ≠ b → l ∉ (i.split others).flow.loopHeaders) ∧
          ∀ hs : List String,
            (l ∈ (i.split others).flow.blocksInLoops hs ↔ b ∈ i.flow.blocksInLoops hs)) ∧
    ∀ q : Sequential, q.source = i →
      ∀ b ∈ q.base.blocks, ∀ m ∈ b.commands, m.isPreemption = true →
        b.preemption? = some m ∧
        ∃ d ∈ i.blocks, m ∈ d.commands ∧ b.label ∈ q.chainLabels d.label ∧
          (b.label ∈ q.inLoops ↔ d.label ∈ i.flow.blocksInLoops
            (i.labels.filter fun l => (q.loop? l).isSome)) := by
  refine ⟨fun others => ?_, fun q hq b hb m hm hp => ?_⟩
  · have hsub := Implementation.subdivision_split hn hc others
    exact ⟨fun a => Implementation.reachable_flow_split hn hc,
      fun a ha b => Implementation.dominates_flow_split hn hc ha,
      Implementation.isReducible_flow_split hn hc,
      fun h => Implementation.mem_loopHeaders_split_iff hn hc,
      fun l => Implementation.exists_mem_chainLabels hn,
      fun b hb => ⟨hsub.self hb, fun l hl =>
        ⟨Implementation.notMem_loopHeaders_split hn hc hl, fun hs =>
          Implementation.mem_blocksInLoops_split_iff hn hc hl⟩⟩⟩
  · subst hq
    obtain ⟨d, hd, hmd, hl⟩ := exists_source_of_preemption hn hb hm hp
    exact ⟨preemption?_of_mem hb hm hp, d, hd, hmd, hl, mem_inLoops_iff hn hc hb hl⟩

end Sequential

namespace Counter

/-- The label `B_0` is taken, so the piece of the block `B` of the loop is `B_1`. -/
theorem loops_split_counter :
    (copy blocks).labels.Nodup ∧ (copy blocks).Closed ∧
      "B_1" ∈ ((copy blocks).split ["B_0"]).flow.blocksInLoops ["H"] ∧
      "E_0" ∉ ((copy blocks).split ["B_0"]).flow.blocksInLoops ["H"] := by
  have hc : (copy blocks).Closed := by
    unfold Implementation.Closed
    decide
  obtain ⟨hsplit, -⟩ := Sequential.loops_split nodup_labels_blocks hc
  obtain ⟨-, -, -, -, -, hin⟩ := hsplit ["B_0"]
  have hb : (copy blocks).chainLabels ["B_0"] "B" = ["B", "B_1"] := by cbv
  have he : (copy blocks).chainLabels ["B_0"] "E" = ["E", "E_0"] := by cbv
  have hloop : (copy blocks).flow.blocksInLoops ["H"] = ["H", "B"] := by cbv
  refine ⟨nodup_labels_blocks, hc, ?_, ?_⟩
  · rw [((hin "B" (by decide)).2 "B_1" (by rw [hb]; decide)).2, hloop]
    decide
  · rw [((hin "E" (by decide)).2 "E_0" (by rw [he]; decide)).2, hloop]
    decide

end Counter

end LayerCheck
