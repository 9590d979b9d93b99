import LayerCheck.Proofs.Sequential.Spliced

/-!
# Which blocks branch off to the checks

A step ends where a block jumps to a preemption point or to the head of a yielding loop, and where
the body returns.  There, and nowhere else, the blocks of the base get jumps to the checks: one to
the check of interference and one to a check of the step.

* `Sequential.EndsStep`, `Sequential.InLoop`: where a step ends, and on which side of a loop.
* `Sequential.mem_added_iff`: the targets that a block gets.
* `Sequential.Produces.step_ends_checked`: every end of a step is checked once, nothing else is.
-/

namespace LayerCheck.Sequential

variable {q : Sequential}

/-- A step begins at the block: it heads a yielding loop of the layer, or begins with a yield or a
parallel call. -/
def BeginsStep (q : Sequential) (l : String) : Prop :=
  l ∈ q.headers ∨ ∃ b ∈ q.base.blocks, b.label = l ∧
    ∃ m rest, b.commands = m :: rest ∧ m.isPreemption = true

/-- The block jumps to one at which a step begins. -/
def EndsStep (q : Sequential) (b : Block) : Prop := ∃ l ∈ b.successors, q.BeginsStep l

/-- The block lies in the natural loop of a back edge into the head of a yielding loop. -/
def InLoop (q : Sequential) (b : Block) : Prop :=
  ∃ h ∈ q.headers, ∃ s, (s, h) ∈ q.base.flow.backEdges ∧ b.label ∈ q.base.flow.naturalLoop h s

/-- The jumps of `c` to checks are those that `b` needs. -/
structure Checked (q : Sequential) (b c : Block) : Prop where
  step : q.EndsStep b →
    c.successors.count Label.noninterference = 1 ∧ Label.returning ∉ c.successors
  outside : q.EndsStep b → ¬ q.InLoop b →
    c.successors.count Label.refinement = 1 ∧ Label.loopRefinement ∉ c.successors
  inside : q.EndsStep b → q.InLoop b →
    c.successors.count Label.loopRefinement = 1 ∧ Label.refinement ∉ c.successors
  ret : b.transfer = .ret →
    c.transfer = .goto [Label.returning, Label.unifiedReturn, Label.noninterference]
  other : b.transfer ≠ .ret → ¬ q.EndsStep b → ∀ l ∈ [Label.noninterference, Label.refinement,
    Label.loopRefinement, Label.returning], l ∉ c.successors

/-- The prepared check `r` of the call stands in `j` once, with one jump from every block that jumps
to the parallel call at `l`.  If calls with one identity are marked differently, the first that is
met decides how the check ends. -/
structure SplicedOnce (q : Sequential) (j : Implementation) (l : String) (call : Call)
    (r : Block) : Prop where
  once : j.labels.count r.label = 1
  jumps : ∀ a ∈ q.base.blocks, l ∈ a.successors → ∀ c ∈ j.blocks, c.label = a.label →
    c.successors.count r.label = 1
  first : ∃ d, q.metComponents.find? (fun d => d.id = call.id) = some d ∧ ∃ c ∈ j.blocks,
    c.label = r.label ∧ c.transfer =
      r.transfer.add (if d.refining then Label.returning else Label.loopRefinement)
  marked : (∀ d ∈ q.metComponents, d.id = call.id → d.refining = call.isRefining) →
    ∃ c ∈ j.blocks, c.label = r.label ∧ c.transfer =
      r.transfer.add (if call.isRefining then Label.returning else Label.loopRefinement)

/-! ## Added targets -/

theorem contains_inLoops_iff {b : Block} : q.inLoops.contains b.label = true ↔ q.InLoop b := by
  rw [List.contains_iff_mem, inLoops, FlowGraph.mem_blocksInLoops_iff]
  rfl

theorem EndsStep.ne_ret {b : Block} (he : q.EndsStep b) : b.transfer ≠ .ret := by
  intro ht
  obtain ⟨l, hl, -⟩ := he
  rw [Block.successors, ht] at hl
  exact absurd hl List.not_mem_nil

theorem mem_headerChecks_iff {b : Block} {l : String} :
    l ∈ q.headerChecks b ↔ (∃ h ∈ q.headers, h ∈ b.successors) ∧
      (l = Label.noninterference ∨ l = stepChecker (q.inLoops.contains b.label)) := by
  simp only [headerChecks, List.mem_flatMap, List.mem_filter, decide_eq_true_eq, List.mem_cons,
    List.not_mem_nil, or_false]
  constructor
  · intro hx
    obtain ⟨h, ⟨hh, hs⟩, hl⟩ := hx
    exact ⟨⟨h, hh, hs⟩, hl⟩
  · intro hx
    obtain ⟨⟨h, hh, hs⟩, hl⟩ := hx
    exact ⟨h, ⟨hh, hs⟩, hl⟩

namespace WellFormed

theorem targets_isEmpty_iff (h : q.WellFormed) {b : Block} :
    (targets q.heads b).isEmpty = false ↔ ∃ l ∈ b.successors, ∃ c ∈ q.base.blocks, c.label = l ∧
      ∃ m rest, c.commands = m :: rest ∧ m.isPreemption = true := by
  rw [List.isEmpty_eq_false_iff_exists_mem]
  simp only [targets, List.mem_filterMap]
  constructor
  · intro hx
    obtain ⟨m, l, hl, hm⟩ := hx
    obtain ⟨c, hc, hcl, hcm⟩ := h.get?_heads_eq_some_iff.mp hm
    obtain ⟨hp, rest, hr⟩ := preemption?_eq_some_iff.mp hcm
    exact ⟨l, hl, c, hc, hcl, m, rest, hr, hp⟩
  · intro hx
    obtain ⟨l, hl, c, hc, hcl, m, rest, hr, hp⟩ := hx
    exact ⟨m, l, hl, h.get?_heads_eq_some_iff.mpr
      ⟨c, hc, hcl, preemption?_eq_some_iff.mpr ⟨hp, rest, hr⟩⟩⟩

theorem mem_preparedLabels_of_targets (h : q.WellFormed) {b : Block} (hb : b ∈ q.base.blocks)
    {l : String} (hl : l ∈ ((targets q.heads b).flatMap q.components).map (·.block.label)) :
    l ∈ q.preparedLabels := by
  obtain ⟨c, hc, rfl⟩ := List.mem_map.mp hl
  obtain ⟨m, hm, hcm⟩ := List.mem_flatMap.mp hc
  exact h.label_mem_preparedLabels
    (List.mem_flatMap.mpr ⟨m, List.mem_flatMap.mpr ⟨b, hb, hm⟩, hcm⟩)

/-- **A block gets jumps to checks exactly if a step ends with it.** -/
theorem mem_added_iff (h : q.WellFormed) {b : Block} (hb : b ∈ q.base.blocks) {l : String}
    (hl : l ∈ Label.reserved) :
    l ∈ q.added b ↔ q.EndsStep b ∧
      (l = Label.noninterference ∨ l = stepChecker (q.inLoops.contains b.label)) := by
  have hprep : l ∉ ((targets q.heads b).flatMap q.components).map (·.block.label) :=
    fun hm => (h.prepared l (h.mem_preparedLabels_of_targets hb hm)).1 hl
  have hends : q.EndsStep b ↔ (∃ h ∈ q.headers, h ∈ b.successors) ∨
      (targets q.heads b).isEmpty = false := by
    rw [h.targets_isEmpty_iff]
    constructor
    · intro hx
      rcases hx with ⟨t, ht, hh | hp⟩
      · exact .inl ⟨t, hh, ht⟩
      · exact .inr ⟨t, ht, hp⟩
    · intro hx
      rcases hx with ⟨t, hh, ht⟩ | ⟨t, ht, hp⟩
      · exact ⟨t, ht, .inl hh⟩
      · exact ⟨t, ht, .inr hp⟩
  rw [added, List.mem_append, List.mem_append, mem_headerChecks_iff, hends]
  cases (targets q.heads b).isEmpty with
  | true => simp [hprep]
  | false =>
    simp only [hprep, or_false, Bool.false_eq_true, if_false, List.mem_cons, List.not_mem_nil,
      or_true, true_and]
    exact ⟨fun hm => hm.elim And.right id, .inr⟩

theorem count_outTransfer (h : q.WellFormed) {b : Block} (hb : b ∈ q.base.blocks)
    (ht : b.transfer ≠ .ret) {l : String} (hl : l ∉ q.base.labels) :
    (q.outTransfer b).targets.count l = if l ∈ q.added b then 1 else 0 := by
  have hr : b.transfer.isReturn = false := by
    cases hb : b.transfer with
    | ret => exact absurd hb ht
    | goto ts => rfl
  have hnot : l ∉ b.transfer.targets := fun hm => hl (h.closed_base b hb l hm)
  rw [outTransfer, if_neg (by rw [hr]; decide), Transfer.count_addAll,
    List.count_eq_zero_of_not_mem hnot]
  simp [hnot]

theorem notMem_base_of_reserved (h : q.WellFormed) {l : String} (hl : l ∈ Label.reserved) :
    l ∉ q.base.labels :=
  fun hm => (h.of_mem_labels_base hm).1 hl

theorem mem_reserved_of_step {b : Block} {l : String} (hl : l = Label.noninterference ∨
    l = stepChecker (q.inLoops.contains b.label)) : l ∈ Label.reserved := by
  rcases hl with rfl | rfl
  · decide
  · exact stepChecker_mem_reserved _

theorem count_eq_one (h : q.WellFormed) {b : Block} (hb : b ∈ q.base.blocks)
    (he : q.EndsStep b) {l : String}
    (hl : l = Label.noninterference ∨ l = stepChecker (q.inLoops.contains b.label)) :
    (q.outBlock b).successors.count l = 1 := by
  have hr := mem_reserved_of_step hl
  show (q.outTransfer b).targets.count l = 1
  rw [h.count_outTransfer hb he.ne_ret (h.notMem_base_of_reserved hr),
    if_pos ((h.mem_added_iff hb hr).mpr ⟨he, hl⟩)]

theorem notMem_outBlock (h : q.WellFormed) {b : Block} (hb : b ∈ q.base.blocks)
    (ht : b.transfer ≠ .ret) {l : String} (hr : l ∈ Label.reserved)
    (hn : ¬ (q.EndsStep b ∧
      (l = Label.noninterference ∨ l = stepChecker (q.inLoops.contains b.label)))) :
    l ∉ (q.outBlock b).successors := by
  rw [← List.count_eq_zero]
  show (q.outTransfer b).targets.count l = 0
  rw [h.count_outTransfer hb ht (h.notMem_base_of_reserved hr),
    if_neg (mt (h.mem_added_iff hb hr).mp hn)]

/-! ## The checks of a block -/

theorem checked_outBlock (h : q.WellFormed) {b : Block} (hb : b ∈ q.base.blocks) :
    q.Checked b (q.outBlock b) where
  step he := by
    refine ⟨h.count_eq_one hb he (.inl rfl), h.notMem_outBlock hb he.ne_ret (by decide) ?_⟩
    intro hx
    obtain ⟨-, hl⟩ := hx
    cases hi : q.inLoops.contains b.label <;> rw [hi] at hl <;> exact absurd hl (by decide)
  outside he hi := by
    rw [← contains_inLoops_iff, Bool.not_eq_true] at hi
    refine ⟨h.count_eq_one hb he (.inr (by rw [hi]; rfl)),
      h.notMem_outBlock hb he.ne_ret (by decide) ?_⟩
    rw [hi]
    intro hx
    obtain ⟨-, hl⟩ := hx
    exact absurd hl (by decide)
  inside he hi := by
    rw [← contains_inLoops_iff] at hi
    refine ⟨h.count_eq_one hb he (.inr (by rw [hi]; rfl)),
      h.notMem_outBlock hb he.ne_ret (by decide) ?_⟩
    rw [hi]
    intro hx
    obtain ⟨-, hl⟩ := hx
    exact absurd hl (by decide)
  ret ht := by
    show q.outTransfer b = _
    rw [outTransfer, ht]
    rfl
  other ht he l hl := by
    have hr : ∀ l ∈ [Label.noninterference, Label.refinement, Label.loopRefinement,
        Label.returning], l ∈ Label.reserved := by decide
    exact h.notMem_outBlock hb ht (hr l hl) fun hs => he hs.1

/-! ## Spliced checks -/

/-- A parallel call of the base is jumped to: it does not stand at the entry. -/
theorem exists_jump (h : q.WellFormed) {b : Block} (hb : b ∈ q.base.blocks) {m : Command}
    {rest : List Command} (hc : b.commands = m :: rest) (hm : m.isPreemption = true) :
    ∃ a ∈ q.base.blocks, b.label ∈ a.successors := by
  have hnew := label_notMem_of_head hb hc hm
  have hr := (h.mem_blocks_base.mp hb).2
  obtain ⟨e, he, hr⟩ := hr
  have hne : b.label ≠ e := by
    rintro rfl
    rw [Implementation.entryLabel?_split, q.entryLabel?_assumed] at he
    exact hnew (List.mem_of_mem_head? he)
  rcases Relation.ReflTransGen.cases_tail hr with heq | ⟨l, hl, hlb⟩
  · exact absurd heq hne
  · obtain ⟨a, ha, rfl, hab⟩ := hlb
    refine ⟨a, h.mem_blocks_base.mpr ⟨?_, e, he, hl⟩, hab⟩
    exact Implementation.mem_blocks_split_iff.mp ha

theorem mem_metComponents {a : Block} (ha : a ∈ q.base.blocks) {c : Component}
    (hc : c ∈ (targets q.heads a).flatMap q.components) : c ∈ q.metComponents := by
  obtain ⟨m, hm, hcm⟩ := List.mem_flatMap.mp hc
  exact List.mem_flatMap.mpr ⟨m, List.mem_flatMap.mpr ⟨a, ha, hm⟩, hcm⟩

section ParCall

variable (h : q.WellFormed) {b : Block} (hb : b ∈ q.base.blocks) {p : ParCall}
  {rest : List Command} (hc : b.commands = .par p :: rest) {call : Call} (hcall : call ∈ p.calls)
  {r : Block} (hr : q.setting.refinementBlocks.get? call.id = some r)

include h hb hc hcall hr

/-- A block that jumps to a parallel call meets its components. -/
theorem exists_component {a : Block} (hab : b.label ∈ a.successors) :
    ∃ c ∈ (targets q.heads a).flatMap q.components,
      c.id = call.id ∧ c.refining = call.isRefining ∧ c.block = r := by
  have hhead : q.heads.get? b.label = some (.par p) :=
    h.get?_heads_eq_some_iff.mpr ⟨b, hb, rfl, preemption?_eq_some_iff.mpr ⟨rfl, rest, hc⟩⟩
  refine ⟨⟨call.id, call.isRefining, r⟩, List.mem_flatMap.mpr ⟨.par p, ?_, ?_⟩, rfl, rfl, rfl⟩
  · exact List.mem_filterMap.mpr ⟨b.label, hab, hhead⟩
  · exact mem_components_par.mpr ⟨call, hcall, rfl, rfl, hr⟩

/-- The component of the identity that is met first has the same prepared check. -/
theorem exists_first :
    ∃ d, q.metComponents.find? (fun d => d.id = call.id) = some d ∧ d.block = r := by
  obtain ⟨a, ha, hab⟩ := h.exists_jump hb hc rfl
  obtain ⟨c, hcm, hid, -, hblock⟩ := h.exists_component hb hc hcall hr hab
  have hmet := mem_metComponents ha hcm
  have hsome : (q.metComponents.find? fun d => d.id = call.id).isSome :=
    List.find?_isSome.mpr ⟨c, hmet, by simpa using hid⟩
  obtain ⟨d, hd⟩ := Option.isSome_iff_exists.mp hsome
  have hdid : d.id = call.id := by simpa using List.find?_some hd
  have hg := h.get?_preparedBlocks_of_mem (List.mem_of_find?_eq_some hd)
  rw [hdid, ← hid, h.get?_preparedBlocks_of_mem hmet, Option.some_inj] at hg
  exact ⟨d, hd, hg.symm.trans hblock⟩

theorem count_jumps {a : Block} (ha : a ∈ q.base.blocks) (hab : b.label ∈ a.successors) :
    (q.outBlock a).successors.count r.label = 1 := by
  obtain ⟨c, hcm, -, -, hcr⟩ := h.exists_component hb hc hcall hr hab
  have hret : a.transfer ≠ .ret := by
    intro ht
    rw [Block.successors, ht] at hab
    exact absurd hab List.not_mem_nil
  have hprep : r.label ∈ q.preparedLabels := by
    rw [← hcr]
    exact h.label_mem_preparedLabels (mem_metComponents ha hcm)
  have hadd : r.label ∈ q.added a := by
    rw [added, List.mem_append, List.mem_append]
    exact .inl (.inr (hcr ▸ List.mem_map_of_mem hcm))
  show (q.outTransfer a).targets.count r.label = 1
  rw [h.count_outTransfer ha hret fun hm => (h.of_mem_labels_base hm).2 hprep, if_pos hadd]

theorem splicedOnce : q.SplicedOnce q.implementation b.label call r := by
  obtain ⟨d, hd, rfl⟩ := h.exists_first hb hc hcall hr
  have hdid : d.id = call.id := by simpa using List.find?_some hd
  have hmem : q.completed d ∈ q.implementation.blocks := by
    refine h.mem_implementation_iff.mpr (.inr (.inr (.inr (mem_spliced_iff.mpr ⟨d, ?_, rfl⟩))))
    rw [hdid]
    exact hd
  refine ⟨?_, ?_, ?_, ?_⟩
  · exact List.count_eq_one_of_mem h.nodup_labels (Implementation.mem_labels.mpr ⟨_, hmem, rfl⟩)
  · intro a ha hab c hca hl
    rw [h.eq_outBlock ha hca hl]
    exact h.count_jumps hb hc hcall hr ha hab
  · exact ⟨d, hd, _, hmem, label_completed d, rfl⟩
  · intro hall
    refine ⟨_, hmem, label_completed d, ?_⟩
    rw [← hall d (List.mem_of_find?_eq_some hd) hdid]
    rfl

end ParCall

end WellFormed

/-- **Every end of a step is checked once by each family of checks, and nothing else is.**  Every
block of the base is there once and jumps to the checks that it needs; every prepared check of a
component of a parallel call is there once, behind all jumps to the parallel call. -/
theorem Produces.step_ends_checked {p : Program} {out : Program × LayerOutput} {j : Implementation}
    (h : q.Produces p out j) (hn : q.source.labels.Nodup)
    (hf : q.setting.copies.Faithful q.source) :
    (∀ b ∈ q.base.blocks, ∃ c ∈ j.blocks, c.label = b.label ∧ j.labels.count b.label = 1 ∧
      q.Checked b c) ∧
    ∀ b ∈ q.base.blocks, ∀ call rest, b.commands = .par call :: rest → ∀ c ∈ call.calls,
      ∀ r, q.setting.refinementBlocks.get? c.id = some r → q.SplicedOnce j b.label c r := by
  have hw := h.wellFormed hn hf
  rw [h.eq_implementation]
  constructor
  · intro b hb
    refine ⟨q.outBlock b, hw.outBlock_mem hb, rfl, ?_, hw.checked_outBlock hb⟩
    exact List.count_eq_one_of_mem hw.nodup_labels
      (Implementation.mem_labels.mpr ⟨_, hw.outBlock_mem hb, rfl⟩)
  · intro b hb call rest hc c hcall r hr
    exact hw.splicedOnce hb hc hcall hr

/-- The counter has a yielding loop and a parallel call with a prepared check. -/
theorem step_ends_checked_counter : ∃ out j,
    (Counter.sequential Counter.blocks).Produces (Counter.program Counter.blocks) out j ∧
      (Counter.copy Counter.blocks).labels.Nodup ∧
      Counter.setting.copies.Faithful (Counter.copy Counter.blocks) ∧
      ∀ b ∈ (Counter.sequential Counter.blocks).base.blocks, ∃ c ∈ j.blocks, c.label = b.label ∧
        j.labels.count b.label = 1 ∧ (Counter.sequential Counter.blocks).Checked b c := by
  obtain ⟨out, h⟩ := Counter.exists_produces_blocks
  have hc := h.step_ends_checked Counter.nodup_labels_blocks Counter.faithful_blocks
  exact ⟨out, _, h, Counter.nodup_labels_blocks, Counter.faithful_blocks, hc.1⟩

end LayerCheck.Sequential
