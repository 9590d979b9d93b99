import LayerCheck.Proofs.Sequential.Body

/-!
# Spliced blocks and labels

The prepared checks of parallel calls are spliced into the body once for each component that is met
at the head of a block.  Their labels are among those that were checked before, so that all labels
of the sequential body are distinct.

* `Sequential.mem_spliced_iff`: which blocks are spliced.
* `Sequential.Prepared`: components with the prepared checks of the copy.
* `Sequential.WellFormed.nodup_labels`: the labels of the sequential body.
-/

namespace LayerCheck.Sequential

variable {q : Sequential}

/-- The components of all parallel calls that are jumped to, in the order in which they are met. -/
def metComponents (q : Sequential) : List Component :=
  (q.base.blocks.flatMap (targets q.heads)).flatMap q.components

theorem mem_components_par {p : ParCall} {c : Component} :
    c ∈ q.components (.par p) ↔ ∃ call ∈ p.calls, c.id = call.id ∧ c.refining = call.isRefining ∧
      q.setting.refinementBlocks.get? call.id = some c.block := by
  simp only [components, List.mem_filterMap, Option.map_eq_some_iff]
  constructor
  · intro h
    obtain ⟨call, hc, r, hr, rfl⟩ := h
    exact ⟨call, hc, rfl, rfl, hr⟩
  · intro h
    obtain ⟨call, hc, hid, hm, hr⟩ := h
    refine ⟨call, hc, c.block, hr, ?_⟩
    rw [← hid, ← hm]

theorem mem_components {m : Command} {c : Component} (hc : c ∈ q.components m) :
    ∃ p, m = .par p ∧ ∃ call ∈ p.calls, c.id = call.id ∧ c.refining = call.isRefining ∧
      q.setting.refinementBlocks.get? call.id = some c.block := by
  cases m with
  | par p => exact ⟨p, rfl, mem_components_par.mp hc⟩
  | _ => simp [components] at hc

theorem preemption?_eq_some_iff {b : Block} {m : Command} :
    b.preemption? = some m ↔ m.isPreemption = true ∧ ∃ rest, b.commands = m :: rest := by
  rw [Block.preemption?, Block.head?, Option.filter_eq_some_iff, List.head?_eq_some_iff, and_comm]

/-- **The spliced blocks: for each component that is met, the one that is met first.** -/
theorem mem_spliced_iff {heads : Table String Command} {blocks : List Block} {b : Block} :
    b ∈ q.spliced heads blocks ↔
      ∃ c, ((blocks.flatMap (targets heads)).flatMap q.components).find? (fun d => d.id = c.id) =
        some c ∧ b = q.completed c := by
  rw [spliced, Table.mem_values]
  simp only [Table.get?_foldl_insertIfNew]
  rw [show (∅ : Table CommandId Block) = Table.empty from rfl]
  simp only [Table.get?_empty, Option.none_or, Option.map_eq_some_iff]
  constructor
  · intro h
    obtain ⟨k, c, hc, rfl⟩ := h
    have hk : c.id = k := by simpa using List.find?_some hc
    exact ⟨c, hk ▸ hc, rfl⟩
  · intro h
    obtain ⟨c, hc, rfl⟩ := h
    exact ⟨c.id, c, hc, rfl⟩

/-! ## Prepared checks -/

theorem label_completed (c : Component) : (q.completed c).label = c.block.label := rfl

theorem get?_preparedBlocks {i : Implementation} {p : ParCall} (hp : p ∈ i.parCalls) {c : Call}
    (hc : c ∈ p.calls) {r : Block} (hr : q.setting.refinementBlocks.get? c.id = some r) :
    (q.setting.preparedBlocks i).get? c.id = some r := by
  -- All entries of one key carry the block of that key, so it does not matter which one counts.
  have hall : ∀ (cs : List Call), c ∈ cs →
      ((cs.filterMap fun d => (q.setting.refinementBlocks.get? d.id).map (d.id, ·)).lookup c.id) =
        some r := by
    intro cs hcs
    induction cs with
    | nil => exact absurd hcs List.not_mem_nil
    | cons d ds ih =>
      by_cases hd : c.id = d.id
      · simp [← hd, hr]
      · have hb : (c.id == d.id) = false := by simpa using hd
        have hds : c ∈ ds := by
          rcases List.mem_cons.mp hcs with rfl | hds
          · exact absurd rfl hd
          · exact hds
        cases hg : q.setting.refinementBlocks.get? d.id with
        | none => simp [hg, ih hds]
        | some r' => simp [hg, List.lookup_cons, hb, ih hds]
  rw [Setting.preparedBlocks, Table.get?_ofList, ← List.filterMap_reverse]
  exact hall _ (List.mem_reverse.mpr (List.mem_flatMap.mpr ⟨p, hp, hc⟩))

/-- The components have the prepared checks of the copy. -/
def Prepared (q : Sequential) (cs : List Component) : Prop :=
  ∀ c ∈ cs, (q.setting.preparedBlocks q.source).get? c.id = some c.block

namespace Prepared

theorem block_mem {cs : List Component} (h : q.Prepared cs) {c : Component} (hc : c ∈ cs) :
    c.block ∈ (q.setting.preparedBlocks q.source).values :=
  Table.mem_values.mpr ⟨c.id, h c hc⟩

theorem label_mem_preparedLabels {cs : List Component} (h : q.Prepared cs) {c : Component}
    (hc : c ∈ cs) : c.block.label ∈ q.preparedLabels :=
  List.mem_map_of_mem (h.block_mem hc)

/-- Different components have prepared checks with different labels. -/
theorem id_eq_of_label_eq {cs : List Component} (h : q.Prepared cs) (hn : q.preparedLabels.Nodup)
    {c d : Component} (hc : c ∈ cs) (hd : d ∈ cs) (hl : c.block.label = d.block.label) :
    c.id = d.id := by
  rw [preparedLabels, Table.values, List.map_map] at hn
  have he := List.inj_on_of_nodup_map hn (Table.get?_eq_some_iff.mp (h c hc))
    (Table.get?_eq_some_iff.mp (h d hd)) hl
  exact congrArg Prod.fst he

variable {heads : Table String Command} {blocks : List Block}
  (h : q.Prepared ((blocks.flatMap (targets heads)).flatMap q.components))

include h

/-- **The labels of the spliced blocks are distinct.** -/
theorem nodup_labels_spliced (hn : q.preparedLabels.Nodup) :
    ((q.spliced heads blocks).map Block.label).Nodup := by
  rw [spliced, Table.values, List.map_map]
  refine List.Nodup.map_on ?_ (List.Nodup.of_map _ (Table.keys_nodup _))
  have hmet : ∀ e ∈ (((blocks.flatMap (targets heads)).flatMap q.components).foldl
      (fun t c => Table.insertIfNew t c.id (q.completed c)) ∅).entries,
      ∃ c ∈ (blocks.flatMap (targets heads)).flatMap q.components, e = (c.id, q.completed c) := by
    intro e he
    have hg := Table.get?_eq_some_iff.mpr he
    rw [Table.get?_foldl_insertIfNew, show (∅ : Table CommandId Block) = Table.empty from rfl,
      Table.get?_empty, Option.none_or, Option.map_eq_some_iff] at hg
    obtain ⟨c, hc, hec⟩ := hg
    have hk : c.id = e.1 := by simpa using List.find?_some hc
    exact ⟨c, List.mem_of_find?_eq_some hc, by rw [hk, hec]⟩
  intro e he f hf hl
  obtain ⟨c, hc, rfl⟩ := hmet e he
  obtain ⟨d, hd, rfl⟩ := hmet f hf
  have hid : c.id = d.id := h.id_eq_of_label_eq hn hc hd hl
  have he' := Table.get?_eq_some_iff.mpr he
  have hf' := Table.get?_eq_some_iff.mpr hf
  rw [hid] at he'
  rw [hid]
  rw [Option.some_inj.mp (he'.symm.trans hf')]

theorem mem_labels_spliced {l : String} (hl : l ∈ (q.spliced heads blocks).map Block.label) :
    l ∈ q.preparedLabels := by
  obtain ⟨b, hb, rfl⟩ := List.mem_map.mp hl
  obtain ⟨c, hc, rfl⟩ := mem_spliced_iff.mp hb
  exact h.label_mem_preparedLabels (List.mem_of_find?_eq_some hc)

/-- The prepared check of every component is spliced in. -/
theorem completed_mem {c : Component}
    (hc : c ∈ (blocks.flatMap (targets heads)).flatMap q.components) :
    ∃ d ∈ (blocks.flatMap (targets heads)).flatMap q.components, d.block = c.block ∧
      q.completed d ∈ q.spliced heads blocks := by
  have hsome : (((blocks.flatMap (targets heads)).flatMap q.components).find?
      fun d => d.id = c.id).isSome :=
    List.find?_isSome.mpr ⟨c, hc, by simp⟩
  obtain ⟨d, hd⟩ := Option.isSome_iff_exists.mp hsome
  have hid : d.id = c.id := by simpa using List.find?_some hd
  have hdm := List.mem_of_find?_eq_some hd
  have hblock := h d hdm
  rw [hid, h c hc, Option.some_inj] at hblock
  exact ⟨d, hdm, hblock.symm, mem_spliced_iff.mpr ⟨d, by rw [hid]; exact hd, rfl⟩⟩

end Prepared

theorem labels_checkers (q : Sequential) :
    q.checkers.map Block.label = [Label.noninterference, Label.refinement, Label.loopRefinement,
      Label.returning, Label.unifiedReturn] := rfl

/-- The labels of the blocks that are added are distinct and none of those of the base. -/
theorem Labelled.nodup_added (h : q.Labelled) {ls : List String} (hb : q.base.labels.Nodup)
    (hn : ls.Nodup) (hp : ∀ l ∈ ls, l ∈ q.preparedLabels) :
    (Label.initial :: (q.base.labels ++ q.checkers.map Block.label ++ ls)).Nodup := by
  have hr : (Label.initial :: q.checkers.map Block.label).Nodup := by
    rw [labels_checkers]
    decide
  have hres : ∀ l ∈ Label.initial :: q.checkers.map Block.label, l ∈ Label.reserved := by
    rw [labels_checkers]
    decide
  rw [List.nodup_cons] at hr
  have hbase : ∀ l ∈ q.base.labels, l ∉ Label.reserved ∧ l ∉ q.preparedLabels :=
    fun l hl => h.of_mem_labels_base hl
  rw [List.nodup_cons, List.nodup_append, List.nodup_append]
  refine ⟨?_, ⟨hb, hr.2, ?_⟩, hn, ?_⟩
  · intro hm
    rcases List.mem_append.mp hm with hm | hm
    · rcases List.mem_append.mp hm with hm | hm
      · exact (hbase _ hm).1 (by decide)
      · exact hr.1 hm
    · exact (h.prepared _ (hp _ hm)).1 (by decide)
  · intro l hl m hm hx
    subst hx
    exact (hbase l hl).1 (hres l (List.mem_cons_of_mem _ hm))
  · intro l hl m hm hx
    subst hx
    rcases List.mem_append.mp hl with hl | hl
    · exact (hbase l hl).2 (hp l hm)
    · exact (h.prepared l (hp l hm)).1 (hres l (List.mem_cons_of_mem _ hl))

namespace WellFormed

/-- The commands of the base other than predicates are commands of reachable blocks of the copy. -/
theorem mem_source_of_mem_base (h : q.WellFormed) {b : Block} (hb : b ∈ q.base.blocks)
    {c : Command} (hc : c ∈ b.commands) (hp : c.isPredicate = false) :
    ∃ d ∈ q.source.blocks, q.source.Reachable d.label ∧ c ∈ d.commands := by
  obtain ⟨s, hs, hbs, d, hd, hl, hcd⟩ := exists_of_mem_commands_base hb hc hp
  exact ⟨d, hd, hl ▸ h.reachable_source hs hbs hb, hcd⟩

theorem mem_parCalls_of_heads (h : q.WellFormed) {l : String} {p : ParCall}
    (hp : q.heads.get? l = some (.par p)) : p ∈ q.source.parCalls := by
  obtain ⟨b, hb, -, hm⟩ := h.get?_heads_eq_some_iff.mp hp
  obtain ⟨-, rest, hc⟩ := preemption?_eq_some_iff.mp hm
  obtain ⟨d, hd, -, hpd⟩ := h.mem_source_of_mem_base hb (c := .par p)
    (hc ▸ List.mem_cons_self) rfl
  rw [Implementation.parCalls_eq, List.mem_filterMap]
  exact ⟨.par p, List.mem_flatMap.mpr ⟨d, hd, hpd⟩, rfl⟩

theorem get?_preparedBlocks_of_mem (h : q.WellFormed) {c : Component}
    (hc : c ∈ q.metComponents) : (q.setting.preparedBlocks q.source).get? c.id = some c.block := by
  obtain ⟨m, hm, hcm⟩ := List.mem_flatMap.mp hc
  obtain ⟨p, rfl, call, hcall, hid, -, hr⟩ := mem_components hcm
  obtain ⟨b, -, hb⟩ := List.mem_flatMap.mp hm
  obtain ⟨t, -, ht⟩ := List.mem_filterMap.mp hb
  rw [hid]
  exact get?_preparedBlocks (h.mem_parCalls_of_heads ht) hcall hr

/-- The components that are met have the prepared checks of the copy. -/
theorem prepared_metComponents (h : q.WellFormed) : q.Prepared q.metComponents :=
  fun _ => h.get?_preparedBlocks_of_mem

theorem label_mem_preparedLabels (h : q.WellFormed) {c : Component} (hc : c ∈ q.metComponents) :
    c.block.label ∈ q.preparedLabels :=
  h.prepared_metComponents.label_mem_preparedLabels hc

theorem nodup_labels_spliced (h : q.WellFormed) :
    ((q.spliced q.heads q.base.blocks).map Block.label).Nodup :=
  h.prepared_metComponents.nodup_labels_spliced h.prepared_nodup

theorem mem_labels_spliced (h : q.WellFormed) {l : String}
    (hl : l ∈ (q.spliced q.heads q.base.blocks).map Block.label) : l ∈ q.preparedLabels :=
  h.prepared_metComponents.mem_labels_spliced hl

theorem refinement_mem_checkers (q : Sequential) :
    .sink Label.refinement q.refinement.assertStep ∈ q.checkers := by
  simp [checkers]

theorem returning_mem_checkers (q : Sequential) : .sink Label.returning
    (q.refinement.assertStep ++ q.refinement.endStep ++ q.refinement.assertReturn) ∈
      q.checkers := by
  simp [checkers]

theorem unifiedReturn_mem_checkers (q : Sequential) :
    { label := Label.unifiedReturn } ∈ q.checkers := by
  simp [checkers]

theorem labels_eq (h : q.WellFormed) :
    q.implementation.labels = Label.initial :: (q.base.labels ++ q.checkers.map Block.label ++
      (q.spliced q.heads q.base.blocks).map Block.label) := by
  have hm : (q.base.blocks.map q.outBlock).map Block.label = q.base.labels :=
    Block.map_label_map (f := q.outBlock) (fun _ => rfl) _
  show q.blocks.map Block.label = _
  rw [h.blocks_eq, List.map_cons, List.map_append, List.map_append, hm]
  rfl

/-- **The labels of the sequential body are distinct.** -/
theorem nodup_labels (h : q.WellFormed) : q.implementation.labels.Nodup := by
  rw [h.labels_eq]
  exact h.nodup_added h.nodup_base h.nodup_labels_spliced fun _ => h.mem_labels_spliced

/-! ## The blocks of the body -/

theorem mem_implementation_iff (h : q.WellFormed) {c : Block} :
    c ∈ q.implementation.blocks ↔ c = q.initialBlock q.others ∨
      (∃ b ∈ q.base.blocks, q.outBlock b = c) ∨ c ∈ q.checkers ∨
        c ∈ q.spliced q.heads q.base.blocks := by
  show c ∈ q.blocks ↔ _
  rw [h.blocks_eq, List.mem_cons, List.mem_append, List.mem_append, List.mem_map, or_assoc]

theorem initialBlock_mem (h : q.WellFormed) :
    q.initialBlock q.others ∈ q.implementation.blocks :=
  h.mem_implementation_iff.mpr (.inl rfl)

theorem checkers_mem (h : q.WellFormed) {k : Block} (hk : k ∈ q.checkers) :
    k ∈ q.implementation.blocks :=
  h.mem_implementation_iff.mpr (.inr (.inr (.inl hk)))

theorem outBlock_mem (h : q.WellFormed) {b : Block} (hb : b ∈ q.base.blocks) :
    q.outBlock b ∈ q.implementation.blocks :=
  h.mem_implementation_iff.mpr (.inr (.inl ⟨b, hb, rfl⟩))

theorem eq_outBlock (h : q.WellFormed) {b c : Block} (hb : b ∈ q.base.blocks)
    (hc : c ∈ q.implementation.blocks) (hl : c.label = b.label) : c = q.outBlock b :=
  Implementation.eq_of_label_eq h.nodup_labels hc (h.outBlock_mem hb) hl

end WellFormed

end LayerCheck.Sequential
