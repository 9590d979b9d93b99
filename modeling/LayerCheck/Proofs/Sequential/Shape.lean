import LayerCheck.Proofs.Sequential.Checks

/-!
# The sequential body as a program

The body that a copy becomes can be run by anyone who knows nothing of other threads: it has one
entry and one return, every jump leads to a block, and no command lets other threads run.  Its size
is that of the reachable part of the copy, up to the checks.

* `Sequential.Shaped`: what is asked of the body.
* `Sequential.WellFormed.closed_implementation`: no jump of the body leads nowhere.
* `Sequential.WellFormed.length_blocks`: the number of its blocks.
* `Sequential.Produces.body_shaped`: the body of an accepted layer is in shape.
-/

namespace LayerCheck

namespace Label

/-- The blocks that check steps. -/
def checkers : List String := [noninterference, refinement, loopRefinement, returning]

end Label

open Classical in
/-- The blocks that jumps lead to from the entry, in their order. -/
noncomputable def Implementation.reachableBlocks (i : Implementation) : List Block :=
  i.blocks.filter fun b => i.Reachable b.label

theorem Implementation.reachableBlocks_eq_prune {i : Implementation} (hn : i.labels.Nodup)
    (hc : i.Closed) : i.reachableBlocks = i.prune.blocks := by
  classical
  refine List.filter_congr fun b _ => ?_
  rw [Bool.eq_iff_iff, decide_eq_true_iff]
  exact (reachable_flow_iff hn hc).symm

theorem Implementation.mem_reachableBlocks {i : Implementation} {b : Block} :
    b ∈ i.reachableBlocks ↔ b ∈ i.blocks ∧ i.Reachable b.label := by
  classical
  rw [reachableBlocks, List.mem_filter, decide_eq_true_iff]

/-- The identities of the components of parallel calls in the blocks for which a check has been
prepared, each once. -/
def Setting.preparedIds (s : Setting) (bs : List Block) : List CommandId :=
  ((((bs.flatMap Block.commands).filterMap Command.par?).flatMap ParCall.calls).map
    Call.id).filter (fun id => (s.refinementBlocks.get? id).isSome) |>.eraseDups

namespace Sequential

variable {q : Sequential}

/-- `j` is a sequential program, of the size of the reachable part of the copy. -/
structure Shaped (q : Sequential) (j : Implementation) : Prop where
  entry : ∃ b e, j.blocks.head? = some b ∧ b.label = Label.initial ∧
    q.source.entryLabel? = some e ∧ b.transfer = .goto [e]
  nodup : j.labels.Nodup
  plain : ∀ b ∈ j.blocks, ∀ c ∈ b.commands, c.isPreemption = false
  closed : j.Closed
  returns : ∀ b ∈ j.blocks,
    b.transfer = .ret ↔ b.label = Label.unifiedReturn ∨ b.label ∈ Label.checkers
  returning : ∃ b ∈ j.blocks, b.label = Label.unifiedReturn
  sinks : ∀ l ∈ Label.checkers, ∃ b ∈ j.blocks, b.label = l ∧ b.commands.getLast? = some .stop
  length : j.blocks.length = q.source.reachableBlocks.length +
    (q.source.reachableBlocks.flatMap Block.commands).countP Command.isPreemption + 6 +
    (q.setting.preparedIds q.source.reachableBlocks).length
  reachable : j.Reachable Label.unifiedReturn ↔
    ∃ b ∈ q.source.blocks, q.source.Reachable b.label ∧ b.transfer = .ret

/-- The prepared checks of the copy let no other thread run and jump nowhere. -/
def PreparedPlain (q : Sequential) : Prop :=
  ∀ r ∈ (q.setting.preparedBlocks q.source).values, Command.Plain r.commands ∧ r.successors = []

/-! ## Commands -/

theorem plain_havocGlobals (s : Setting) : Command.Plain s.havocGlobals := by
  rw [Setting.havocGlobals, Command.havocAll]
  split
  · exact .nil
  · exact .cons rfl .nil

theorem plain_assumes (es : List Expr) : Command.Plain (es.map .assume) := by
  refine .of_isPredicate fun c hc => ?_
  obtain ⟨e, -, rfl⟩ := List.mem_map.mp hc
  rfl

theorem plain_beginStep (q : Sequential) (s : Site) : Command.Plain (q.beginStep s) :=
  q.plain_store.append (q.plain_collect s)

theorem plain_endStep (r : Refinement) : Command.Plain r.endStep := by
  cases r with
  | none => exact .nil
  | some r => exact .cons rfl .nil

theorem plain_endMarkedStep (r : Refinement) : Command.Plain r.endMarkedStep := by
  cases r with
  | none => exact .nil
  | some r => exact .cons rfl (.cons rfl .nil)

theorem plain_afterYield (inLoop : Bool) (id : CommandId) {rest : List Command}
    (hr : Command.Plain rest) : Command.Plain (q.afterYield inLoop id rest) := by
  have hend : Command.Plain (if inLoop then [] else q.refinement.endStep) := by
    split
    · exact .nil
    · exact plain_endStep _
  refine ((((((hend.append (.leadingPredicates _)).append (plain_havocGlobals _)).append
    q.plain_assumeGate).append (plain_assumes _)).append (q.plain_beginStep _)).append
    (plain_assumes _)).append ?_
  exact fun c hc => hr c (List.mem_of_mem_drop hc)

theorem plain_afterParCall (inLoop : Bool) (p : ParCall) {rest : List Command}
    (hr : Command.Plain rest) : Command.Plain (q.afterParCall inLoop p rest) := by
  have hend : Command.Plain (if inLoop then []
      else if p.isRefining then q.refinement.endMarkedStep else q.refinement.endStep) := by
    split
    · exact .nil
    · split
      · exact plain_endMarkedStep _
      · exact plain_endStep _
  exact ((hend.append (.cons rfl q.plain_assumeGate)).append (q.plain_beginStep _)).append hr

theorem plain_completed {c : Component} (hc : Command.Plain c.block.commands) :
    Command.Plain (q.completed c).commands :=
  (((plain_havocGlobals _).append q.plain_assumeGate).append q.plain_store).append hc

theorem plain_initialBlock (q : Sequential) (others : List Block) :
    Command.Plain (q.initialBlock others).commands := by
  have hpre : Command.Plain (q.setting.preconditions q.layer q.plan) := by
    refine ((plain_havocGlobals _).append (plain_assumes _)).append ?_
    refine .of_isPredicate fun c hc => ?_
    obtain ⟨d, -, rfl⟩ := List.mem_map.mp hc
    rfl
  have hinit : Command.Plain q.refinement.initial := by
    cases q.refinement with
    | none => exact .nil
    | some r => exact .cons rfl (.assignAll _ _)
  refine ((hpre.append (.assignAll _ _)).append hinit).append ?_
  cases q.interference with
  | trusted => exact .nil
  | checked t => exact .assignAll _ _

theorem plain_of_mem_checkers {b : Block} (hb : b ∈ q.checkers) : Command.Plain b.commands := by
  have hstep : Command.Plain q.refinement.assertStep := by
    cases q.refinement with
    | none => exact .nil
    | some r => exact .cons rfl (.cons rfl .nil)
  have hstop : Command.Plain [Command.stop] := .cons rfl .nil
  simp only [checkers, List.mem_cons, List.not_mem_nil, or_false] at hb
  rcases hb with rfl | rfl | rfl | rfl | rfl
  · refine .append ?_ hstop
    cases q.interference with
    | trusted => exact .nil
    | checked t => exact .cons rfl .nil
  · exact hstep.append hstop
  · refine .append (.of_isPredicate fun c hc => ?_) hstop
    cases hr : q.refinement with
    | none => simp [hr, Refinement.assertLoopGlobals, Refinement.assertLoopOutputs] at hc
    | some r =>
      simp only [hr, Refinement.assertLoopGlobals, Refinement.assertLoopOutputs, List.mem_append,
        List.mem_map] at hc
      rcases hc with ⟨e, -, rfl⟩ | ⟨e, -, rfl⟩ <;> rfl
  · refine .append ((hstep.append (plain_endStep _)).append ?_) hstop
    cases q.refinement with
    | none => exact .nil
    | some r => exact .cons rfl .nil
  · exact .nil

theorem plain_outBlock {b : Block} (hb : b ∈ q.base.blocks) :
    Command.Plain (q.outBlock b).commands := by
  show Command.Plain (q.outCommands b)
  rcases of_mem_commands_base hb with ⟨-, hp⟩ | ⟨-, m, rest, hc, hm, hr⟩
  · rw [outCommands_of_plain hp, openCommands]
    split
    · exact plain_openLoop hp
    · exact hp
  · rw [outCommands, hc]
    cases m with
    | yield id => exact plain_afterYield _ _ hr
    | par p => exact plain_afterParCall _ _ hr
    | _ => simp [Command.isPreemption] at hm

theorem exists_sink_mem_checkers (q : Sequential) {l : String} (hl : l ∈ Label.checkers) :
    ∃ cs, Block.sink l cs ∈ q.checkers := by
  simp only [Label.checkers, List.mem_cons, List.not_mem_nil, or_false] at hl
  rcases hl with rfl | rfl | rfl | rfl
  · exact ⟨_, .head _⟩
  · exact ⟨_, .tail _ (.head _)⟩
  · exact ⟨_, .tail _ (.tail _ (.head _))⟩
  · exact ⟨_, .tail _ (.tail _ (.tail _ (.head _)))⟩

theorem transfer_of_mem_checkers {b : Block} (hb : b ∈ q.checkers) : b.transfer = .ret := by
  simp only [checkers, List.mem_cons, List.not_mem_nil, or_false] at hb
  rcases hb with rfl | rfl | rfl | rfl | rfl <;> rfl

/-- What a block of the base jumps to in the end. -/
theorem mem_successors_outBlock_iff {b : Block} {l : String} :
    l ∈ (q.outBlock b).successors ↔
      b.transfer = .ret ∧ l ∈ [Label.returning, Label.unifiedReturn, Label.noninterference] ∨
      b.transfer ≠ .ret ∧ (l ∈ b.successors ∨ l ∈ q.added b) := by
  show l ∈ (q.outTransfer b).targets ↔ _
  cases ht : b.transfer with
  | ret => simp [outTransfer, ht, Transfer.isReturn, Transfer.targets]
  | goto ts =>
    have hr : b.transfer.isReturn = false := by rw [ht]; rfl
    rw [outTransfer, if_neg (by rw [hr]; decide), Transfer.mem_addAll, Block.successors]
    simp [ht]

namespace WellFormed

/-- A component that is met has one of the prepared checks of the copy. -/
theorem block_mem_preparedBlocks (h : q.WellFormed) {c : Component} (hc : c ∈ q.metComponents) :
    c.block ∈ (q.setting.preparedBlocks q.source).values :=
  h.prepared_metComponents.block_mem hc

theorem plain_implementation (h : q.WellFormed) (hp : q.PreparedPlain) {b : Block}
    (hb : b ∈ q.implementation.blocks) : Command.Plain b.commands := by
  rcases h.mem_implementation_iff.mp hb with rfl | ⟨c, hc, rfl⟩ | hk | hs
  · exact plain_initialBlock _ _
  · exact plain_outBlock hc
  · exact plain_of_mem_checkers hk
  · obtain ⟨c, hc, rfl⟩ := mem_spliced_iff.mp hs
    exact plain_completed (hp _ (h.block_mem_preparedBlocks (List.mem_of_find?_eq_some hc))).1

/-! ## Jumps -/

theorem mem_labels_of_mem_reserved (h : q.WellFormed) {l : String} (hl : l ∈ Label.reserved) :
    l ∈ q.implementation.labels := by
  rw [h.labels_eq, labels_checkers]
  simp only [Label.reserved, List.mem_cons, List.not_mem_nil, or_false] at hl
  rcases hl with rfl | rfl | rfl | rfl | rfl | rfl <;> simp

theorem mem_labels_of_mem_base (h : q.WellFormed) {l : String} (hl : l ∈ q.base.labels) :
    l ∈ q.implementation.labels := by
  rw [h.labels_eq]
  simp [hl]

/-- The check of a component that is met is there. -/
theorem completed_mem (h : q.WellFormed) {c : Component} (hc : c ∈ q.metComponents) :
    ∃ d ∈ q.metComponents, d.block = c.block ∧ q.completed d ∈ q.implementation.blocks := by
  obtain ⟨d, hd, hdc, hmem⟩ := h.prepared_metComponents.completed_mem hc
  exact ⟨d, hd, hdc, h.mem_implementation_iff.mpr (.inr (.inr (.inr hmem)))⟩

theorem mem_successors_completed_iff {c : Component} (hc : c.block.successors = []) {l : String} :
    l ∈ (q.completed c).successors ↔
      l = if c.refining then Label.returning else Label.loopRefinement := by
  show l ∈ (c.block.transfer.add _).targets ↔ _
  rw [Transfer.mem_add, show c.block.transfer.targets = [] from hc]
  simp

/-- The targets that a block of the base gets are blocks of the body. -/
theorem mem_labels_of_mem_added (h : q.WellFormed) {b : Block} (hb : b ∈ q.base.blocks)
    {l : String} (hl : l ∈ q.added b) : l ∈ q.implementation.labels := by
  rw [added, List.mem_append, List.mem_append] at hl
  rcases hl with (hl | hl) | hl
  · exact h.mem_labels_of_mem_reserved (mem_reserved_of_mem_headerChecks hl)
  · obtain ⟨c, hc, rfl⟩ := List.mem_map.mp hl
    obtain ⟨d, -, hdc, hd⟩ := h.completed_mem (mem_metComponents hb hc)
    exact Implementation.mem_labels.mpr ⟨_, hd, by rw [label_completed, hdc]⟩
  · refine h.mem_labels_of_mem_reserved ?_
    split at hl
    · exact absurd hl List.not_mem_nil
    · simp only [List.mem_cons, List.not_mem_nil, or_false] at hl
      exact mem_reserved_of_step hl

/-- **Every jump of the body leads to a block.** -/
theorem closed_implementation (h : q.WellFormed) (hp : q.PreparedPlain) :
    q.implementation.Closed := by
  intro b hb l hl
  rcases h.mem_implementation_iff.mp hb with rfl | ⟨c, hc, rfl⟩ | hk | hs
  · rw [Block.successors, h.initialBlock_transfer, ← h.entryLabel?_base] at hl
    exact h.mem_labels_of_mem_base (List.mem_of_mem_head? (Option.mem_toList.mp hl))
  · rcases mem_successors_outBlock_iff.mp hl with ⟨-, hl⟩ | ⟨-, hl | hl⟩
    · have hres : ∀ l ∈ [Label.returning, Label.unifiedReturn, Label.noninterference],
          l ∈ Label.reserved := by decide
      exact h.mem_labels_of_mem_reserved (hres l hl)
    · exact h.mem_labels_of_mem_base (h.closed_base c hc l hl)
    · exact h.mem_labels_of_mem_added hc hl
  · rw [Block.successors, transfer_of_mem_checkers hk] at hl
    exact absurd hl List.not_mem_nil
  · obtain ⟨c, hc, rfl⟩ := mem_spliced_iff.mp hs
    have hsucc := (hp _ (h.block_mem_preparedBlocks (List.mem_of_find?_eq_some hc))).2
    rw [(mem_successors_completed_iff hsucc).mp hl]
    refine h.mem_labels_of_mem_reserved ?_
    split <;> decide

/-! ## Returns -/

theorem transfer_eq_ret_iff (h : q.WellFormed) {b : Block} (hb : b ∈ q.implementation.blocks) :
    b.transfer = .ret ↔ b ∈ q.checkers := by
  constructor
  · intro ht
    rcases h.mem_implementation_iff.mp hb with rfl | ⟨c, hc, rfl⟩ | hk | hs
    · exact absurd ht (by rw [h.initialBlock_transfer]; simp)
    · have hr : (q.outTransfer c).isReturn = true := by
        rw [show q.outTransfer c = .ret from ht]
        rfl
      rw [outTransfer] at hr
      split at hr
      · exact absurd hr (by decide)
      · rename_i hc
        rw [Transfer.isReturn_addAll (by simpa using hc)] at hr
        exact absurd hr (by decide)
    · exact hk
    · obtain ⟨c, -, rfl⟩ := mem_spliced_iff.mp hs
      have hr := Transfer.isReturn_add c.block.transfer
        (if c.refining then Label.returning else Label.loopRefinement)
      rw [show c.block.transfer.add _ = .ret from ht] at hr
      exact absurd hr (by decide)
  · exact transfer_of_mem_checkers

theorem transfer_eq_ret_iff_label (h : q.WellFormed) {b : Block}
    (hb : b ∈ q.implementation.blocks) :
    b.transfer = .ret ↔ b.label = Label.unifiedReturn ∨ b.label ∈ Label.checkers := by
  rw [h.transfer_eq_ret_iff hb]
  constructor
  · intro hk
    have hl : b.label ∈ q.checkers.map Block.label := List.mem_map_of_mem hk
    rw [labels_checkers] at hl
    simp only [List.mem_cons, List.not_mem_nil, or_false] at hl
    simp only [Label.checkers, List.mem_cons, List.not_mem_nil, or_false]
    tauto
  · intro hl
    have hm : b.label ∈ q.checkers.map Block.label := by
      rw [labels_checkers]
      simp only [Label.checkers, List.mem_cons, List.not_mem_nil, or_false] at hl
      simp only [List.mem_cons, List.not_mem_nil, or_false]
      tauto
    obtain ⟨k, hk, hkl⟩ := List.mem_map.mp hm
    rw [← Implementation.eq_of_label_eq h.nodup_labels (h.checkers_mem hk) hb hkl]
    exact hk

/-- Only a block that returned jumps to the return of the body. -/
theorem exists_returning (h : q.WellFormed) (hp : q.PreparedPlain) {b : Block}
    (hb : b ∈ q.implementation.blocks) (hl : Label.unifiedReturn ∈ b.successors) :
    ∃ c ∈ q.base.blocks, c.transfer = .ret ∧ q.outBlock c = b := by
  rcases h.mem_implementation_iff.mp hb with rfl | ⟨c, hc, rfl⟩ | hk | hs
  · rw [Block.successors, h.initialBlock_transfer, ← h.entryLabel?_base] at hl
    have hm := h.of_mem_labels_base (List.mem_of_mem_head? (Option.mem_toList.mp hl))
    exact absurd (by decide) hm.1
  · rcases mem_successors_outBlock_iff.mp hl with ⟨ht, -⟩ | ⟨-, hl | hl⟩
    · exact ⟨c, hc, ht, rfl⟩
    · exact absurd (by decide) (h.of_mem_labels_base (h.closed_base c hc _ hl)).1
    · obtain ⟨-, hl⟩ := (h.mem_added_iff hc (by decide)).mp hl
      cases hi : q.inLoops.contains c.label <;> rw [hi] at hl <;> exact absurd hl (by decide)
  · rw [Block.successors, transfer_of_mem_checkers hk] at hl
    exact absurd hl List.not_mem_nil
  · obtain ⟨c, hc, rfl⟩ := mem_spliced_iff.mp hs
    have hsucc := (hp _ (h.block_mem_preparedBlocks (List.mem_of_find?_eq_some hc))).2
    have hl := (mem_successors_completed_iff hsucc).mp hl
    split at hl <;> exact absurd hl (by decide)

/-- What can be reached in the base can be reached in the body. -/
theorem reachable_implementation (h : q.WellFormed) {b : Block} (hb : b ∈ q.base.blocks) :
    q.implementation.Reachable b.label := by
  have hr : q.base.Reachable b.label := by
    rw [q.base_eq]
    exact Implementation.reachable_prune h.nodup_split (h.mem_blocks_base.mp hb).2
  obtain ⟨e, he, hr⟩ := hr
  have hinit : q.implementation.Edge Label.initial e := by
    refine ⟨_, h.initialBlock_mem, rfl, ?_⟩
    rw [Block.successors, h.initialBlock_transfer, ← h.entryLabel?_base, he]
    exact List.mem_singleton_self e
  refine ⟨Label.initial, rfl, .head hinit (Relation.ReflTransGen.mono ?_ _ _ hr)⟩
  intro l m hlm
  obtain ⟨c, hc, rfl, hm⟩ := hlm
  refine ⟨_, h.outBlock_mem hc, rfl, mem_successors_outBlock_iff.mpr (.inr ⟨?_, .inl hm⟩)⟩
  intro ht
  rw [Block.successors, ht] at hm
  exact List.not_mem_nil hm

/-- **The body can return exactly if the copy can.** -/
theorem reachable_unifiedReturn_iff (h : q.WellFormed) (hp : q.PreparedPlain) :
    q.implementation.Reachable Label.unifiedReturn ↔
      ∃ b ∈ q.source.blocks, q.source.Reachable b.label ∧ b.transfer = .ret := by
  constructor
  · intro hr
    obtain ⟨e, he, hr⟩ := hr
    rcases Relation.ReflTransGen.cases_tail hr with heq | ⟨l, -, hl⟩
    · have hl : Label.initial = Label.unifiedReturn := Option.some_inj.mp (he.trans (heq ▸ rfl))
      exact absurd hl (by decide)
    · obtain ⟨b, hb, -, hm⟩ := hl
      obtain ⟨c, hc, ht, -⟩ := h.exists_returning hp hb hm
      obtain ⟨⟨s, hs, hcs⟩, -⟩ := h.mem_blocks_base.mp hc
      obtain ⟨d, hd, hsd⟩ := h.exists_source hs
      have hreach := h.reachable_source hs hcs hc
      rw [hsd.label] at hreach
      refine ⟨d, hd, hreach, ?_⟩
      exact hsd.linked.eq_of_ret hcs ht
  · intro hx
    obtain ⟨d, hd, hr, ht⟩ := hx
    obtain ⟨s, hs, hsd⟩ := h.exists_cut hd
    obtain ⟨c, hc, hct⟩ := hsd.linked.exists_last
    have hcb := h.mem_blocks_base_of_mem_chain hs (hsd.label ▸ hr) hc
    refine (h.reachable_implementation hcb).edge ⟨_, h.outBlock_mem hcb, rfl, ?_⟩
    exact mem_successors_outBlock_iff.mpr (.inl ⟨hct.trans ht, by simp⟩)

/-! ## How many blocks there are -/

theorem length_base (h : q.WellFormed) :
    q.base.blocks.length = q.source.reachableBlocks.length +
      (q.source.reachableBlocks.flatMap Block.commands).countP Command.isPreemption := by
  have hassumed : q.assumed.prune.blocks = q.source.reachableBlocks.map fun b =>
      { b with commands := q.assumedCommands b } := by
    rw [← Implementation.reachableBlocks_eq_prune h.nodup_assumed h.closed_assumed,
      Implementation.reachableBlocks, assumed, Implementation.blocks_withDisjointness _ _ _ _
      h.nodup, List.filter_map]
    congr 1
    refine List.filter_congr fun b _ => ?_
    simp [Implementation.reachable_withDisjointness_iff]
  rw [q.base_eq, Implementation.length_prune_split h.nodup_assumed h.closed_assumed, hassumed,
    List.length_map, List.flatMap_map, List.countP_flatMap, List.countP_flatMap]
  congr 2
  exact List.map_congr_left fun b _ =>
    Implementation.countP_isPreemption_assumedCommands _ _ _ _ _

theorem mem_preparedIds_iff {s : Setting} {bs : List Block} {id : CommandId} :
    id ∈ s.preparedIds bs ↔ (s.refinementBlocks.get? id).isSome ∧
      ∃ b ∈ bs, ∃ p, .par p ∈ b.commands ∧ ∃ c ∈ p.calls, c.id = id := by
  have hpar : ∀ p, p ∈ (bs.flatMap Block.commands).filterMap Command.par? ↔
      ∃ b ∈ bs, .par p ∈ b.commands := by
    intro p
    rw [List.mem_filterMap]
    constructor
    · intro hx
      obtain ⟨c, hc, hp⟩ := hx
      obtain ⟨b, hb, hcb⟩ := List.mem_flatMap.mp hc
      exact ⟨b, hb, Command.eq_par_of_par? hp ▸ hcb⟩
    · intro hx
      obtain ⟨b, hb, hp⟩ := hx
      exact ⟨_, List.mem_flatMap.mpr ⟨b, hb, hp⟩, rfl⟩
  simp only [Setting.preparedIds, List.mem_eraseDups, List.mem_filter, List.mem_map,
    List.mem_flatMap, hpar]
  constructor
  · intro hx
    obtain ⟨⟨c, ⟨p, ⟨b, hb, hp⟩, hc⟩, rfl⟩, hr⟩ := hx
    exact ⟨hr, b, hb, p, hp, c, hc, rfl⟩
  · intro hx
    obtain ⟨hr, b, hb, p, hp, c, hc, rfl⟩ := hx
    exact ⟨⟨c, ⟨p, ⟨b, hb, hp⟩, hc⟩, rfl⟩, hr⟩

/-- The components that are met are those of the parallel calls of reachable blocks. -/
theorem exists_metComponent_iff (h : q.WellFormed) {id : CommandId} :
    (∃ c ∈ q.metComponents, c.id = id) ↔
      id ∈ q.setting.preparedIds q.source.reachableBlocks := by
  rw [mem_preparedIds_iff]
  constructor
  · intro hx
    obtain ⟨c, hc, rfl⟩ := hx
    obtain ⟨m, hm, hcm⟩ := List.mem_flatMap.mp hc
    obtain ⟨p, rfl, call, hcall, hid, -, hr⟩ := mem_components hcm
    obtain ⟨a, -, ha⟩ := List.mem_flatMap.mp hm
    obtain ⟨l, -, hl⟩ := List.mem_filterMap.mp ha
    obtain ⟨b, hb, -, hbm⟩ := h.get?_heads_eq_some_iff.mp hl
    obtain ⟨-, rest, hbc⟩ := preemption?_eq_some_iff.mp hbm
    obtain ⟨d, hd, hdr, hdp⟩ := h.mem_source_of_mem_base hb (c := .par p)
      (hbc ▸ List.mem_cons_self) rfl
    refine ⟨by rw [hid, hr]; rfl, d, Implementation.mem_reachableBlocks.mpr ⟨hd, hdr⟩, p, hdp, ?_⟩
    exact ⟨call, hcall, hid.symm⟩
  · intro hx
    obtain ⟨hr, d, hd, p, hp, call, hcall, rfl⟩ := hx
    obtain ⟨hd, hdr⟩ := Implementation.mem_reachableBlocks.mp hd
    obtain ⟨r, hr⟩ := Option.isSome_iff_exists.mp hr
    obtain ⟨b, hb, rest, hbc⟩ := h.exists_head hd hdr hp rfl
    obtain ⟨a, ha, hab⟩ := h.exists_jump hb hbc rfl
    obtain ⟨c, hc, hid, -⟩ := h.exists_component hb hbc hcall hr hab
    exact ⟨c, mem_metComponents ha hc, hid⟩

/-- **Of every component that is met there is one check, whatever calls it occurs in.** -/
theorem length_spliced (h : q.WellFormed) :
    (q.spliced q.heads q.base.blocks).length =
      (q.setting.preparedIds q.source.reachableBlocks).length := by
  let t : Table CommandId Block :=
    q.metComponents.foldl (fun t c => t.insertIfNew c.id (q.completed c)) ∅
  have hlen : (q.spliced q.heads q.base.blocks).length = t.keys.length := by
    rw [Table.keys, List.length_map]
    exact List.length_map _
  have hperm : t.keys.Perm (q.setting.preparedIds q.source.reachableBlocks) := by
    refine (List.perm_ext_iff_of_nodup t.keys_nodup (List.nodup_eraseDups _)).mpr fun id => ?_
    have hid : id ∈ t.keys ↔ id ∈ (∅ : Table CommandId Block).keys ∨
        ∃ c ∈ q.metComponents, c.id = id := Table.mem_keys_foldl_insertIfNew _ _ _ _
    exact hid.trans ((or_iff_right List.not_mem_nil).trans h.exists_metComponent_iff)
  rw [hlen, hperm.length_eq]

theorem length_blocks (h : q.WellFormed) :
    q.implementation.blocks.length = q.source.reachableBlocks.length +
      (q.source.reachableBlocks.flatMap Block.commands).countP Command.isPreemption + 6 +
      (q.setting.preparedIds q.source.reachableBlocks).length := by
  have hk : q.checkers.length = 5 := rfl
  show q.blocks.length = _
  rw [h.blocks_eq, List.length_cons, List.length_append, List.length_append, List.length_map,
    h.length_base, h.length_spliced, hk]
  omega

theorem shaped (h : q.WellFormed) (hp : q.PreparedPlain) : q.Shaped q.implementation where
  entry := by
    obtain ⟨b, bs, hb⟩ := List.exists_cons_of_ne_nil h.nonempty
    have he : q.source.entryLabel? = some b.label := by
      rw [Implementation.entryLabel?, Implementation.labels, hb]
      rfl
    exact ⟨q.initialBlock q.others, b.label, rfl, rfl, he, by rw [h.initialBlock_transfer, he]; rfl⟩
  nodup := h.nodup_labels
  plain b hb := h.plain_implementation hp hb
  closed := h.closed_implementation hp
  returns b hb := h.transfer_eq_ret_iff_label hb
  returning := ⟨_, h.checkers_mem (unifiedReturn_mem_checkers q), rfl⟩
  sinks l hl := by
    obtain ⟨cs, hcs⟩ := exists_sink_mem_checkers q hl
    exact ⟨_, h.checkers_mem hcs, rfl, List.getLast?_concat⟩
  length := h.length_blocks
  reachable := h.reachable_unifiedReturn_iff hp

end WellFormed

/-- **The body of an accepted layer is a sequential program.**  It has one entry and one return,
which can be reached if the copy could return; its labels are distinct, its jumps lead to blocks,
nothing in it lets other threads run, and all it has beside the pieces of the reachable blocks are
six blocks and one check for each component of a parallel call. -/
theorem Produces.body_shaped {p : Program} {out : Program × LayerOutput} {j : Implementation}
    (h : q.Produces p out j) (hn : q.source.labels.Nodup)
    (hf : q.setting.copies.Faithful q.source) (hp : q.PreparedPlain) : q.Shaped j := by
  rw [h.eq_implementation]
  exact (h.wellFormed hn hf).shaped hp

/-- The counter has a yield, and a parallel call with a prepared check that leads nowhere. -/
theorem body_shaped_counter : ∃ out j,
    (Counter.sequential Counter.blocks).Produces (Counter.program Counter.blocks) out j ∧
      (Counter.copy Counter.blocks).labels.Nodup ∧
      Counter.setting.copies.Faithful (Counter.copy Counter.blocks) ∧
      (Counter.sequential Counter.blocks).PreparedPlain ∧
      (Counter.sequential Counter.blocks).Shaped j := by
  obtain ⟨out, h⟩ := Counter.exists_produces_blocks
  have hp : (Counter.sequential Counter.blocks).PreparedPlain := by
    intro r hr
    rw [show r = { label := "R", transfer := .goto [] } from List.mem_singleton.mp hr]
    exact ⟨.nil, rfl⟩
  exact ⟨out, _, h, Counter.nodup_labels_blocks, Counter.faithful_blocks, hp,
    h.body_shaped Counter.nodup_labels_blocks Counter.faithful_blocks hp⟩

end Sequential

end LayerCheck
