import LayerCheck.Proofs.Sequential.Spliced
import LayerCheck.Proofs.Sequential.Weave
import Mathlib.Data.Set.Function

/-!
# The ways through the sequential body

Without the checks, the sequential body has the jumps of the base, between the initial block and the
block at which all returns meet.  So its ways are those of the copy, chain by chain, and along them
run the commands of the copy with instrumentation in between.

* `Sequential.WellFormed.skeleton`: the labels and jumps of the body without its checks.
* `Sequential.route`: the way through the body that belongs to a way through the copy.
* `Sequential.Produces.ways_preserved`: the two correspond one to one, commands included.
-/

namespace LayerCheck.Sequential

variable {q : Sequential}

/-- The labels of the blocks that only check something. -/
def checkLabels (q : Sequential) : List String :=
  [Label.noninterference, Label.refinement, Label.loopRefinement, Label.returning] ++
    q.preparedLabels

/-- The way through the sequential body that belongs to a way through the copy. -/
def route (q : Sequential) (π : List String) : List String :=
  Label.initial :: (π.flatMap (q.assumed.chainLabels q.preparedLabels) ++ [Label.unifiedReturn])

/-- How a block of the base ends if there are no checks. -/
def bareTransfer (b : Block) : Transfer :=
  if b.transfer.isReturn then .goto [Label.unifiedReturn] else b.transfer

namespace WellFormed

/-! ## The body without its checks -/

theorem added_subset (h : q.WellFormed) {b : Block} (hb : b ∈ q.base.blocks) :
    q.added b ⊆ q.checkLabels := by
  have hs : ∀ inLoop, stepChecker inLoop ∈ q.checkLabels := by
    intro inLoop
    cases inLoop <;> simp [checkLabels, stepChecker]
  have hc : ∀ l ∈ [Label.noninterference, stepChecker (q.inLoops.contains b.label)],
      l ∈ q.checkLabels := by
    intro l hl
    rcases List.mem_cons.mp hl with rfl | hl
    · simp [checkLabels]
    · rw [List.mem_singleton.mp hl]
      exact hs _
  intro l hl
  rw [added, List.mem_append, List.mem_append] at hl
  rcases hl with (hl | hl) | hl
  · obtain ⟨-, -, hl⟩ := List.mem_flatMap.mp hl
    exact hc l hl
  · refine List.mem_append_right _ ?_
    obtain ⟨c, hc, rfl⟩ := List.mem_map.mp hl
    obtain ⟨m, hm, hcm⟩ := List.mem_flatMap.mp hc
    exact h.label_mem_preparedLabels
      (List.mem_flatMap.mpr ⟨m, List.mem_flatMap.mpr ⟨b, hb, hm⟩, hcm⟩)
  · split at hl
    · exact absurd hl List.not_mem_nil
    · exact hc l hl

theorem notMem_checkLabels (h : q.WellFormed) {l : String} (hl : l ∈ q.base.labels) :
    l ∉ Label.initial :: q.checkLabels ∧ l ≠ Label.unifiedReturn := by
  obtain ⟨hr, hp⟩ := h.of_mem_labels_base hl
  have hres : ∀ m ∈ [Label.initial, Label.noninterference, Label.refinement, Label.loopRefinement,
      Label.returning, Label.unifiedReturn], l ≠ m := by
    intro m hm hx
    subst hx
    exact hr hm
  refine ⟨?_, hres _ (by simp)⟩
  simp only [checkLabels, List.mem_cons, List.mem_append, List.not_mem_nil, or_false, not_or]
  exact ⟨hres _ (by simp), ⟨hres _ (by simp), hres _ (by simp), hres _ (by simp),
    hres _ (by simp)⟩, hp⟩

theorem initial_notMem (h : q.WellFormed) : Label.initial ∉ q.checkLabels := by
  intro hm
  rcases List.mem_append.mp hm with hm | hm
  · exact absurd hm (by decide)
  · exact (h.prepared _ hm).1 (by decide)

theorem unifiedReturn_notMem (h : q.WellFormed) :
    Label.unifiedReturn ∉ Label.initial :: q.checkLabels := by
  have hp : Label.unifiedReturn ∉ q.preparedLabels := fun hm => (h.prepared _ hm).1 (by decide)
  simp only [checkLabels, List.mem_cons, List.mem_append, List.not_mem_nil, or_false, not_or]
  exact ⟨by decide, ⟨by decide, by decide, by decide, by decide⟩, hp⟩

/-- Without its jumps to checks a block ends as it did in the base. -/
theorem outTransfer_without (h : q.WellFormed) {b : Block} (hb : b ∈ q.base.blocks)
    {ls : List String} (hc : q.checkLabels ⊆ ls) (hl : ls ⊆ Label.initial :: q.checkLabels) :
    (q.outTransfer b).without ls = bareTransfer b := by
  have hchecks : ∀ l ∈ q.added b, decide (l ∉ ls) = false := by
    intro l hm
    simpa using hc (h.added_subset hb hm)
  rw [outTransfer, bareTransfer]
  cases ht : b.transfer with
  | ret =>
    have hr : Label.returning ∈ ls := hc (by simp [checkLabels])
    have hn : Label.noninterference ∈ ls := hc (by simp [checkLabels])
    have hu : Label.unifiedReturn ∉ ls := fun hm => h.unifiedReturn_notMem (hl hm)
    simp [Transfer.isReturn, Transfer.without, hr, hn, hu]
  | goto ts =>
    have hret : ((Transfer.goto ts).addAll (q.added b)).isReturn = false :=
      Transfer.isReturn_addAll rfl _
    have hf := Transfer.filter_addAll hchecks (.goto ts)
    have hts : ∀ t ∈ ts, decide (t ∉ ls) = true := by
      intro t htm
      have hm : t ∈ q.base.labels := h.closed_base b hb t (by rw [Block.successors, ht]; exact htm)
      simpa using fun hml => (h.notMem_checkLabels hm).1 (hl hml)
    simp only [Transfer.isReturn, Bool.false_eq_true, if_false]
    cases ha : (Transfer.goto ts).addAll (q.added b) with
    | ret => simp [ha, Transfer.isReturn] at hret
    | goto us =>
      rw [ha] at hf
      simp only [Transfer.targets] at hf
      rw [Transfer.without, hf, List.filter_eq_self.mpr hts]

theorem filter_blocks (h : q.WellFormed) {ls : List String} (hc : q.checkLabels ⊆ ls)
    (hl : ls ⊆ Label.initial :: q.checkLabels) :
    q.implementation.blocks.filter (·.label ∉ ls) =
      (if Label.initial ∈ ls then [] else [q.initialBlock q.others]) ++
        (q.base.blocks.map q.outBlock ++ [{ label := Label.unifiedReturn }]) := by
  have hbase : (q.base.blocks.map q.outBlock).filter (·.label ∉ ls) =
      q.base.blocks.map q.outBlock := by
    rw [List.filter_eq_self]
    intro c hcm
    obtain ⟨b, hb, rfl⟩ := List.mem_map.mp hcm
    have hm : b.label ∈ q.base.labels := Implementation.mem_labels.mpr ⟨b, hb, rfl⟩
    show decide (b.label ∉ ls) = true
    simpa using fun hml => (h.notMem_checkLabels hm).1 (hl hml)
  have hspliced : (q.spliced q.heads q.base.blocks).filter (·.label ∉ ls) = [] := by
    rw [List.filter_eq_nil_iff]
    intro c hcm
    have hp := h.mem_labels_spliced (List.mem_map_of_mem hcm)
    simpa using hc (List.mem_append_right _ hp)
  have hcheckers : q.checkers.filter (·.label ∉ ls) = [{ label := Label.unifiedReturn }] := by
    have hmem : ∀ l ∈ [Label.noninterference, Label.refinement, Label.loopRefinement,
        Label.returning], l ∈ ls := fun l hm => hc (List.mem_append_left _ hm)
    have hu : Label.unifiedReturn ∉ ls := fun hm => h.unifiedReturn_notMem (hl hm)
    simp [checkers, Block.sink, hu, hmem]
  show q.blocks.filter _ = _
  rw [h.blocks_eq, List.filter_cons, List.filter_append, List.filter_append, hbase, hspliced,
    hcheckers, List.append_nil]
  by_cases hi : Label.initial ∈ ls <;> simp [initialBlock, initialBlockFrom, hi]

/-- **Without the initial block and all checks, the body has the labels and jumps of the base, and
returns meet in one block.** -/
theorem skeleton (h : q.WellFormed) :
    ((q.implementation.without (Label.initial :: q.checkLabels)).blocks.map
        fun b => (b.label, b.transfer)) =
      q.base.blocks.map (fun b => (b.label, bareTransfer b)) ++ [(Label.unifiedReturn, .ret)] := by
  have hf := h.filter_blocks (List.subset_cons_self _ _) (List.Subset.refl _)
  rw [if_pos List.mem_cons_self, List.nil_append] at hf
  rw [Implementation.without]
  simp only [hf, List.map_append, List.map_map]
  congr 1
  apply List.map_congr_left
  intro b hb
  simp only [Function.comp_apply, outBlock]
  rw [h.outTransfer_without hb (List.subset_cons_self _ _) (List.Subset.refl _)]

/-! ## Ways through the base -/

theorem way_source_iff (h : q.WellFormed) {π : List String} :
    q.assumed.Way π ↔ q.source.Way π := by
  constructor
  · refine fun hw => hw.mono fun b hm => ?_
    obtain ⟨c, hc, rfl⟩ := (Implementation.mem_blocks_withDisjointness _ _ _ h.nodup).mp hm
    exact ⟨c, hc, rfl, rfl⟩
  · refine fun hw => hw.mono fun c hc => ⟨{ c with commands := q.assumedCommands c }, ?_, rfl, rfl⟩
    exact (Implementation.mem_blocks_withDisjointness _ _ _ h.nodup).mpr ⟨c, hc, rfl⟩

theorem entryWay_source_iff (h : q.WellFormed) {π : List String} :
    q.assumed.EntryWay π ↔ q.source.EntryWay π := by
  constructor
  · exact fun hx => ⟨hx.start.trans q.entryLabel?_assumed, h.way_source_iff.mp hx.way⟩
  · exact fun hx => ⟨hx.start.trans q.entryLabel?_assumed.symm, h.way_source_iff.mpr hx.way⟩

theorem entryWay_base_iff (h : q.WellFormed) {σ : List String} :
    q.base.EntryWay σ ↔ (q.assumed.split q.preparedLabels).EntryWay σ := by
  rw [q.base_eq, Implementation.entryWay_prune_iff h.nodup_split]

/-- **The ways through the base are those through the copy, chain by chain.** -/
theorem entryWay_base (h : q.WellFormed) {σ : List String} :
    q.base.EntryWay σ ↔ ∃ π, q.source.EntryWay π ∧
      π.flatMap (q.assumed.chainLabels q.preparedLabels) = σ := by
  rw [h.entryWay_base_iff, Implementation.entryWay_split_iff h.nodup_assumed h.closed_assumed.clear]
  simp only [h.entryWay_source_iff]

/-! ## Ways through the body without its checks -/

/-- The sequential body without the blocks that only check something. -/
theorem mem_bare_iff (h : q.WellFormed) {c : Block} :
    c ∈ (q.implementation.without q.checkLabels).blocks ↔
      c = { q.initialBlock q.others with transfer := .goto q.source.entryLabel?.toList } ∨
      (∃ b ∈ q.base.blocks, c = { q.outBlock b with transfer := bareTransfer b }) ∨
      c = { label := Label.unifiedReturn } := by
  have hf := h.filter_blocks (List.Subset.refl _) (List.subset_cons_self _ _)
  rw [if_neg h.initial_notMem] at hf
  have hentry : (Transfer.goto q.source.entryLabel?.toList).without q.checkLabels =
      .goto q.source.entryLabel?.toList := by
    rw [Transfer.without, List.filter_eq_self.mpr]
    intro l hl
    have hm : l ∈ q.base.labels := by
      have : q.base.entryLabel? = some l := by
        rw [h.entryLabel?_base]
        simpa using hl
      exact List.mem_of_mem_head? this
    simpa using fun hc => (h.notMem_checkLabels hm).1 (List.mem_cons_of_mem _ hc)
  rw [Implementation.without]
  simp only [hf, List.singleton_append, List.map_cons, List.map_append, List.map_map, List.map_nil,
    List.mem_cons, List.mem_append, List.mem_map, Function.comp_apply, List.not_mem_nil, or_false]
  rw [h.initialBlock_transfer, hentry]
  constructor
  · intro hx
    rcases hx with rfl | ⟨b, hb, rfl⟩ | rfl
    · exact .inl rfl
    · refine .inr (.inl ⟨b, hb, ?_⟩)
      rw [← h.outTransfer_without hb (List.Subset.refl _) (List.subset_cons_self _ _)]
      rfl
    · exact .inr (.inr rfl)
  · intro hx
    rcases hx with rfl | ⟨b, hb, rfl⟩ | rfl
    · exact .inl rfl
    · refine .inr (.inl ⟨b, hb, ?_⟩)
      rw [← h.outTransfer_without hb (List.Subset.refl _) (List.subset_cons_self _ _)]
      rfl
    · exact .inr (.inr rfl)

theorem nodup_bare (h : q.WellFormed) :
    (q.implementation.without q.checkLabels).labels.Nodup := by
  refine List.Sublist.nodup ?_ h.nodup_labels
  rw [Implementation.without, Implementation.labels, List.map_map]
  exact List.filter_sublist.map _

theorem way_bare_of_base (h : q.WellFormed) {σ : List String} (hw : q.base.Way σ) :
    (q.implementation.without q.checkLabels).Way (σ ++ [Label.unifiedReturn]) := by
  have hu : (q.implementation.without q.checkLabels).Way [Label.unifiedReturn] :=
    .ret (b := { label := Label.unifiedReturn }) (h.mem_bare_iff.mpr (.inr (.inr rfl))) rfl
  induction hw with
  | @ret b hb ht =>
    refine .step (b := { q.outBlock b with transfer := bareTransfer b })
      (h.mem_bare_iff.mpr (.inr (.inl ⟨b, hb, rfl⟩))) ?_ hu
    simp [Block.successors, bareTransfer, ht, Transfer.isReturn, Transfer.targets]
  | @step b m ms hb hm _ ih =>
    refine .step (b := { q.outBlock b with transfer := bareTransfer b })
      (h.mem_bare_iff.mpr (.inr (.inl ⟨b, hb, rfl⟩))) ?_ ih
    cases ht : b.transfer with
    | ret => simp [Block.successors, ht, Transfer.targets] at hm
    | goto ts =>
      rw [Block.successors, ht] at hm
      simpa [Block.successors, bareTransfer, ht, Transfer.isReturn] using hm

theorem way_base_of_bare (h : q.WellFormed) {ρ : List String} {l : String}
    (hw : (q.implementation.without q.checkLabels).Way ρ) (hl : l ∈ q.base.labels)
    (hh : ρ.head? = some l) :
    ∃ σ, q.base.Way σ ∧ σ.head? = some l ∧ ρ = σ ++ [Label.unifiedReturn] := by
  have hblock : ∀ {c : Block}, c ∈ (q.implementation.without q.checkLabels).blocks →
      c.label ∈ q.base.labels →
      ∃ b ∈ q.base.blocks, c = { q.outBlock b with transfer := bareTransfer b } := by
    intro c hc hcl
    have hn := h.notMem_checkLabels hcl
    rcases h.mem_bare_iff.mp hc with rfl | hb | rfl
    · exact absurd List.mem_cons_self hn.1
    · exact hb
    · exact absurd rfl hn.2
  induction hw generalizing l with
  | @ret c hc ht =>
    rw [List.head?_cons, Option.some_inj] at hh
    obtain ⟨b, hb, rfl⟩ := hblock hc (hh ▸ hl)
    rw [bareTransfer] at ht
    cases hb : b.transfer <;> simp [hb, Transfer.isReturn] at ht
  | @step c m ms hc hm hw ih =>
    rw [List.head?_cons, Option.some_inj] at hh
    obtain ⟨b, hb, rfl⟩ := hblock hc (hh ▸ hl)
    cases ht : b.transfer with
    | ret =>
      -- A block that returned jumps to the block where all returns meet, and there the way ends.
      have hmu : m = Label.unifiedReturn := by
        simpa [Block.successors, bareTransfer, ht, Transfer.isReturn, Transfer.targets] using hm
      subst hmu
      have hu : ({ label := Label.unifiedReturn } : Block) ∈
          (q.implementation.without q.checkLabels).blocks :=
        h.mem_bare_iff.mpr (.inr (.inr rfl))
      rcases (Implementation.way_cons_iff h.nodup_bare hu).mp hw with ⟨-, rfl⟩ | ⟨n, hn, -⟩
      · exact ⟨[b.label], .ret hb ht, congrArg some hh, rfl⟩
      · exact absurd hn List.not_mem_nil
    | goto ts =>
      have hms : m ∈ b.successors := by
        simpa [Block.successors, bareTransfer, ht, Transfer.isReturn] using hm
      obtain ⟨σ, hσ, hσh, hσe⟩ := ih (h.closed_base b hb m hms) rfl
      obtain ⟨σ', rfl⟩ := List.head?_eq_some_iff.mp hσh
      refine ⟨b.label :: m :: σ', .step hb hms hσ, congrArg some hh, ?_⟩
      rw [List.cons_append, ← hσe]
      rfl

/-- **The ways through the body without its checks are the routes of those through the copy.** -/
theorem bijOn_route (h : q.WellFormed) :
    Set.BijOn q.route {π | q.source.EntryWay π}
      {ρ | (q.implementation.without q.checkLabels).EntryWay ρ} := by
  have hinit : { q.initialBlock q.others with transfer := .goto q.source.entryLabel?.toList } ∈
      (q.implementation.without q.checkLabels).blocks := h.mem_bare_iff.mpr (.inl rfl)
  have hentry : (q.implementation.without q.checkLabels).entryLabel? = some Label.initial := by
    have hf := h.filter_blocks (List.Subset.refl _) (List.subset_cons_self _ _)
    rw [if_neg h.initial_notMem] at hf
    rw [Implementation.entryLabel?, Implementation.labels, Implementation.without]
    simp only [hf]
    rfl
  refine ⟨?_, ?_, ?_⟩
  · intro π hπ
    have hb : q.base.EntryWay (π.flatMap (q.assumed.chainLabels q.preparedLabels)) :=
      h.entryWay_base.mpr ⟨π, hπ, rfl⟩
    refine ⟨hentry.symm, ?_⟩
    refine Implementation.Follows.way (t := .goto q.source.entryLabel?.toList) ?_ hinit rfl
    obtain ⟨l, hl⟩ : ∃ l, q.source.entryLabel? = some l := by
      rw [← hπ.start]
      cases π with
      | nil => exact absurd rfl hπ.way.ne_nil
      | cons l π => exact ⟨l, rfl⟩
    refine .inr ⟨l, by simp [Transfer.targets, hl], ?_, h.way_bare_of_base hb.way⟩
    rw [List.head?_append, hb.start, h.entryLabel?_base, hl, Option.some_or]
  · -- The labels of the copy on a route are those of its way.
    intro π hπ ρ hρ he
    rw [route, route, List.cons.injEq, List.append_cancel_right_eq] at he
    have hfilter : ∀ {π : List String}, q.source.EntryWay π →
        (π.flatMap (q.assumed.chainLabels q.preparedLabels)).filter (· ∈ q.assumed.labels) = π := by
      intro π hπ
      refine Implementation.filter_flatMap_chainLabels h.nodup_assumed fun l hl => ?_
      rw [q.labels_assumed]
      exact hπ.way.mem_labels l hl
    rw [← hfilter hπ, he.2, hfilter hρ]
  · intro ρ hx
    obtain ⟨hs, hw⟩ := hx
    rw [hentry] at hs
    obtain ⟨ρ', rfl⟩ := List.head?_eq_some_iff.mp hs
    rcases (Implementation.way_cons_iff h.nodup_bare hinit).mp hw with ⟨ht, -⟩ | ⟨l, hl, hh, hw'⟩
    · cases ht
    · have hl' : q.base.entryLabel? = some l := by
        rw [h.entryLabel?_base]
        simpa [Transfer.targets] using hl
      obtain ⟨σ, hσ, hσh, rfl⟩ :=
        h.way_base_of_bare hw' (List.mem_of_mem_head? hl') hh
      obtain ⟨π, hπ, rfl⟩ := h.entryWay_base.mp ⟨hσh.trans hl'.symm, hσ⟩
      exact ⟨π, hπ, rfl⟩

/-! ## The commands along a way -/

theorem commandsAlong_chain (h : q.WellFormed) {bs : List Block}
    (hb : ∀ b ∈ bs, b ∈ q.base.blocks) :
    q.implementation.commandsAlong (bs.map Block.label) = bs.flatMap q.outCommands := by
  have hm : ∀ c ∈ bs.map q.outBlock, c ∈ q.implementation.blocks := by
    intro c hc
    obtain ⟨b, hbs, rfl⟩ := List.mem_map.mp hc
    exact h.outBlock_mem (hb b hbs)
  have hall := Implementation.commandsAlong_map_label h.nodup_labels hm
  rw [List.map_map, List.flatMap_map] at hall
  exact hall

theorem woven_route (h : q.WellFormed) {π : List String} (hπ : q.source.EntryWay π) :
    q.Woven (q.source.commandsAlong π) (q.implementation.commandsAlong (q.route π)) := by
  have hstart := Implementation.commandsAlong_cons h.nodup_labels h.initialBlock_mem
    (π.flatMap (q.assumed.chainLabels q.preparedLabels) ++ [Label.unifiedReturn])
  have hend := Implementation.commandsAlong_cons h.nodup_labels
    (h.checkers_mem (unifiedReturn_mem_checkers q)) []
  rw [route]
  refine Eq.mpr (congrArg _ hstart) (Woven.prepend ?_ (instrumentation_initialBlock q.others))
  rw [Implementation.commandsAlong_append, hend]
  show q.Woven _ (_ ++ [])
  rw [List.append_nil, Implementation.commandsAlong, Implementation.commandsAlong,
    List.flatMap_assoc]
  refine Woven.flatMap fun l hl => ?_
  obtain ⟨c, hc, rfl⟩ := Implementation.mem_labels.mp (hπ.way.mem_labels l hl)
  obtain ⟨s, hs, hsc⟩ := h.exists_cut hc
  have hchain : q.assumed.chainLabels q.preparedLabels c.label = s.chain.map Block.label := by
    have hlabel : s.block.label = c.label := hsc.label
    rw [← hlabel]
    exact Implementation.chainLabels_of_mem h.nodup_assumed hs
  have hbase : ∀ b ∈ s.chain, b ∈ q.base.blocks := by
    refine fun b hb => h.mem_blocks_base_of_mem_chain hs ?_ hb
    rw [hsc.label]
    exact hπ.reachable _ hl
  have halong := h.commandsAlong_chain hbase
  rw [Implementation.commandsAlong] at halong
  rw [hchain, halong, (Implementation.block?_eq_some_iff h.nodup).mpr ⟨hc, rfl⟩]
  exact woven_chain hc hsc

end WellFormed

/-- **The sequential body has the ways of the copy.**  Without the initial block and the checks it
has the labels and jumps of the base, and returns meet in one block.  The ways of the copy
correspond one to one to those of the body without its checks, and along corresponding ways run the
same commands, with instrumentation in place of yields and around everything else. -/
theorem Produces.ways_preserved {p : Program} {out : Program × LayerOutput} {j : Implementation}
    (h : q.Produces p out j) (hn : q.source.labels.Nodup)
    (hf : q.setting.copies.Faithful q.source) :
    ((j.without (Label.initial :: q.checkLabels)).blocks.map fun b => (b.label, b.transfer)) =
        q.base.blocks.map (fun b => (b.label, bareTransfer b)) ++ [(Label.unifiedReturn, .ret)] ∧
      Set.BijOn q.route {π | q.source.EntryWay π} {ρ | (j.without q.checkLabels).EntryWay ρ} ∧
      ∀ π, q.source.EntryWay π →
        q.Woven (q.source.commandsAlong π) (j.commandsAlong (q.route π)) := by
  have hw := h.wellFormed hn hf
  rw [h.eq_implementation]
  exact ⟨hw.skeleton, hw.bijOn_route, fun π hπ => hw.woven_route hπ⟩

/-- The counter has ways of any length, round and round its loop. -/
theorem ways_preserved_counter : ∃ out j,
    (Counter.sequential Counter.blocks).Produces (Counter.program Counter.blocks) out j ∧
      (Counter.copy Counter.blocks).labels.Nodup ∧
      Counter.setting.copies.Faithful (Counter.copy Counter.blocks) ∧
      Set.BijOn (Counter.sequential Counter.blocks).route
        {π | (Counter.copy Counter.blocks).EntryWay π}
        {ρ | (j.without (Counter.sequential Counter.blocks).checkLabels).EntryWay ρ} := by
  obtain ⟨out, h⟩ := Counter.exists_produces_blocks
  have hw := h.ways_preserved Counter.nodup_labels_blocks Counter.faithful_blocks
  exact ⟨out, _, h, Counter.nodup_labels_blocks, Counter.faithful_blocks, hw.2.1⟩

end LayerCheck.Sequential
