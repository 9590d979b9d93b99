import LayerCheck.Proofs.Sequential.Begin

/-!
# What runs do to the abstract state

Where a fragment ends, it has passed a check, and the flags are set to account for it before the
next one begins.  Only where a yielding loop is entered from outside a new fragment begins although
the flags are as they were.

* `Sequential.Apart.runs_plain`, `Sequential.Apart.runs_loop`, `Sequential.Apart.runs_afterHavoc`:
  the blocks of a run.
* `Sequential.WellFormed.of_passesChecks`: what the checks of a block say.
* `Sequential.Apart.accounted`: the account of a run.
-/

namespace LayerCheck

open Interpretation Command

namespace Sequential

open ActionRefinement

variable {M : Interpretation} {q : Sequential} {a : AtomicAction} {pre start s t : M.State}

/-! ## Blocks -/

theorem commands_outBlock_of_yield {b : Block} {id : CommandId} {rest : List Command}
    (hy : b.commands = .yield id :: rest) :
    (q.outBlock b).commands = q.beforeHavoc (q.inLoops.contains b.label) rest ++
      (q.setting.havocGlobals ++ q.afterHavoc id rest) := by
  rw [← afterYield_eq]
  show q.outCommands b = _
  rw [outCommands, hy]

namespace WellFormed

/-- The blocks of the base that a block of the sequential body jumps to. -/
theorem mem_successors_of_outBlock (h : q.WellFormed) {b : Block} (hb : b ∈ q.base.blocks)
    {l : String} (hl : l ∈ (q.outBlock b).successors) (hm : l ∈ q.base.labels) :
    l ∈ b.successors := by
  have hres := h.of_mem_labels_base hm
  have hl : l ∈ (q.outTransfer b).targets := hl
  rw [outTransfer] at hl
  split at hl
  · have hall : ∀ l ∈ [Label.returning, Label.unifiedReturn, Label.noninterference],
        l ∈ Label.reserved := by decide
    exact absurd (hall l hl) hres.1
  · rcases Transfer.mem_addAll.mp hl with hl | hl
    · exact hl
    · rw [added, List.mem_append, List.mem_append] at hl
      rcases hl with (hl | hl) | hl
      · exact absurd (mem_reserved_of_mem_headerChecks hl) hres.1
      · exact absurd (h.mem_preparedLabels_of_targets hb hl) hres.2
      · refine absurd ?_ hres.1
        split at hl
        · exact absurd hl List.not_mem_nil
        · exact mem_reserved_of_step (by simpa using hl)

theorem exists_outBlock (h : q.WellFormed) {d : Block} (hd : d ∈ q.implementation.blocks)
    (hl : d.label ∈ q.base.labels) : ∃ b ∈ q.base.blocks, b.label = d.label ∧ d = q.outBlock b := by
  obtain ⟨b, hb, hbl⟩ := Implementation.mem_labels.mp hl
  exact ⟨b, hb, hbl, h.eq_outBlock hb hd hbl.symm⟩

end WellFormed

namespace Apart

variable (h : q.Apart) (hw : q.WellFormed) (ha : q.plan.action? = some a)

include h hw in
/-- In the midst of a fragment, a block leaves the copies and the flags alone. -/
theorem runs_plain {b : Block} (hb : b ∈ q.base.blocks) (hn : ¬ q.BeginsStep b.label)
    (hr : Runs (q.surroundings pre) (q.outBlock b).commands s t) : Keeps q.marks s t := by
  have hp : Command.Plain b.commands := by
    rcases of_mem_commands_base hb with ⟨-, hp⟩ | ⟨-, m, rest, hc, hm, -⟩
    · exact hp
    · exact absurd (.inr ⟨b, hb, rfl, m, rest, hc, hm⟩) hn
  have ho : (q.outBlock b).commands = b.commands := by
    show q.outCommands b = _
    rw [outCommands_of_plain hp, openCommands, if_neg fun hh => hn (.inl hh)]
  rw [ho] at hr
  exact h.keeps_of_runs (fun c hc v hv => h.notMem_writes hw hb hc hv) hr

include h ha in
/-- From the beginning of a fragment to the end of its first block. -/
theorem runs_beginStep_append {site : Site} {cs : List Command}
    (hcs : ∀ c ∈ cs, ∀ v ∈ q.locals, v.name ∉ c.writes)
    (hr : Runs (q.surroundings pre) (q.beginStep site ++ cs) s t) :
    (q.refining a).Tracks s t ∧ t pc.name = s pc.name ∧ t ok.name = s ok.name := by
  obtain ⟨m, hm, ht⟩ := runs_append.mp hr
  obtain ⟨htr, hp, hk⟩ := h.runs_beginStep ha hm
  have hkeep := h.keeps_of_runs hcs ht
  exact ⟨tracks_of_keeps ha htr hkeep, (hkeep _ (pc_mem_marks ha)).trans hp,
    (hkeep _ (ok_mem_marks ha)).trans hk⟩

/-- Touching the globals changes nothing. -/
theorem runs_touchGlobals {σ : Surroundings M} (hr : Runs σ q.touchGlobals s t) : t = s := by
  have hv : (q.globals.map Variable.expr).map (·.eval s σ.pre) =
      (q.globals.map Variable.name).map s := by
    rw [List.map_map, List.map_map]
    rfl
  rw [touchGlobals, runs_assignAll, hv, setAll_self] at hr
  exact hr

include h hw ha in
/-- **At the head of a yielding loop a fragment begins.** -/
theorem runs_loop {b : Block} (hb : b ∈ q.base.blocks) (hh : b.label ∈ q.headers)
    (hr : Runs (q.surroundings pre) (q.outBlock b).commands s t) :
    (q.refining a).Tracks s t ∧ t pc.name = s pc.name ∧ t ok.name = s ok.name := by
  have ho : (q.outBlock b).commands = (q.openLoop b).commands := by
    show q.outCommands b = _
    rw [outCommands_of_plain (hw.plain_of_mem_headers hb hh), openCommands, if_pos hh]
  rw [ho, openLoop, List.append_assoc, List.append_assoc, List.append_assoc, List.append_assoc,
    runs_append] at hr
  obtain ⟨s₁, hr₁, hr₂₃⟩ := hr
  obtain ⟨s₂, hr₂, hr₃₄⟩ := runs_append.mp hr₂₃
  obtain ⟨s₃, hr₃, hr₄₅⟩ := runs_append.mp hr₃₄
  obtain ⟨s₄, hr₄, hr₅⟩ := runs_append.mp hr₄₅
  obtain rfl := hr₁.eq_of_isPredicate fun _ hc => List.mem_takeWhile_imp hc
  obtain rfl := hr₂.eq_of_isPredicate fun _ hc => isPredicate_of_mem_assumeGate hc
  obtain rfl := hr₃.eq_of_isPredicate fun _ hc => isPredicate_of_mem_loopInvariants hc
  obtain rfl := runs_touchGlobals hr₄
  exact h.runs_beginStep_append ha
    (fun c hc v hv => h.notMem_writes hw hb (List.mem_of_mem_drop hc) hv) hr₅

include ha in
/-- **Before a yield the fragment is accounted for**, unless it is part of a yielding loop. -/
theorem runs_beforeHavoc (hM : M.Standard) (htr : (q.refining a).Tracks start s) {inLoop : Bool}
    {rest : List Command} (hr : Runs (q.surroundings pre) (q.beforeHavoc inLoop rest) s t) :
    if inLoop then t = s
    else (M.Holds (t pc.name) ↔ (Keeps q.globals start s → M.Holds (s pc.name))) ∧
      (M.Holds (t ok.name) ↔ M.Holds (s ok.name) ∨ a.Performs q.source q.globals start s) := by
  obtain ⟨m, hm, ht⟩ := runs_append.mp hr
  obtain rfl := ht.eq_of_isPredicate fun _ hc => List.mem_takeWhile_imp hc
  cases inLoop with
  | true => exact hm
  | false =>
    rw [if_neg (by decide), refinement_eq ha] at hm
    have hf := Refinement.of_runs_endStep hM htr hm
    exact ⟨hf.1, hf.2.1⟩

include h in
/-- Other threads change globals only. -/
theorem keeps_of_runs_havocGlobals (hr : Runs (q.surroundings pre) q.setting.havocGlobals s t) :
    Keeps q.marks s t := by
  intro v hv
  refine runs_havocAll.mp hr _ fun hg => ?_
  obtain ⟨g, hg, he⟩ := List.mem_map.mp hg
  exact h.name_ne (List.mem_append_left _ hg) (mem_locals_of_mem_marks hv) he

include h hw ha in
/-- **After a yield a fragment begins**, in whatever state other threads have left. -/
theorem runs_afterHavoc {b : Block} (hb : b ∈ q.base.blocks) {id : CommandId}
    {rest : List Command} (hc : b.commands = .yield id :: rest) {n : M.State}
    (hn : Runs (q.surroundings pre) q.setting.havocGlobals s n)
    (hr : Runs (q.surroundings pre) (q.afterHavoc id rest) n t) :
    (q.refining a).Tracks n t ∧ t pc.name = s pc.name ∧ t ok.name = s ok.name := by
  have hkeep := h.keeps_of_runs_havocGlobals hn
  rw [afterHavoc, List.append_assoc, List.append_assoc, runs_append] at hr
  obtain ⟨s₁, hr₁, hr₂₃⟩ := hr
  obtain ⟨s₂, hr₂, hr₃⟩ := runs_append.mp hr₂₃
  obtain rfl := hr₁.eq_of_isPredicate fun _ hc => isPredicate_of_mem_assumeGate hc
  obtain rfl := hr₂.eq_of_isPredicate fun _ hc =>
    Permissions.isPredicate_of_mem_assumeDisjoint _ _ hc
  have hwrites : ∀ c ∈ ((leadingPredicates rest).filterMap predicate?).map Command.assume ++
      rest.drop (leadingPredicates rest).length, ∀ v ∈ q.locals, v.name ∉ c.writes := by
    intro c hm v hv
    rcases List.mem_append.mp hm with hm | hm
    · obtain ⟨e, -, rfl⟩ := List.mem_map.mp hm
      exact List.not_mem_nil
    · refine h.notMem_writes hw hb ?_ hv
      rw [hc]
      exact List.mem_cons_of_mem _ (List.mem_of_mem_drop hm)
  obtain ⟨htr, hp, hk⟩ := h.runs_beginStep_append ha hwrites hr₃
  exact ⟨htr, hp.trans (hkeep _ (pc_mem_marks ha)), hk.trans (hkeep _ (ok_mem_marks ha))⟩

include h hw ha in
/-- What the block of a yield does after other threads have run, wherever it is cut. -/
theorem runs_of_cut {b : Block} (hb : b ∈ q.base.blocks) {id : CommandId}
    {rest after : List Command} (hc : b.commands = .yield id :: rest)
    (hcut : (q.outBlock b).commands = q.beforeHavoc (q.inLoops.contains b.label) rest ++
      (q.setting.havocGlobals ++ after)) {n : M.State}
    (hn : Runs (q.surroundings pre) q.setting.havocGlobals s n)
    (hr : Runs (q.surroundings pre) after n t) :
    (q.refining a).Tracks n t ∧ t pc.name = s pc.name ∧ t ok.name = s ok.name := by
  rw [commands_outBlock_of_yield hc] at hcut
  have hafter : q.afterHavoc id rest = after :=
    List.append_cancel_left (List.append_cancel_left hcut)
  exact h.runs_afterHavoc hw ha hb hc hn (hafter ▸ hr)

end Apart

/-! ## Checks -/

/-- The run is at the end of a block of the base, or of the initial block, where a fragment
begins. -/
def Underway (q : Sequential) (c : Block) (start s : M.State) : Prop :=
  (∃ b ∈ q.base.blocks, c = q.outBlock b) ∨ (c = q.initialBlock q.others ∧ s = start)

namespace WellFormed

variable (h : q.WellFormed)

include h in
/-- **What the check at the end of a fragment says.** -/
theorem of_passesChecks (ha : q.plan.action? = some a) (hM : M.Standard) {b : Block}
    (hb : b ∈ q.base.blocks) (he : q.EndsStep b) (htr : (q.refining a).Tracks start s)
    (hc : q.PassesChecks pre q.implementation (q.outBlock b) s) :
    if q.inLoops.contains b.label then Keeps (q.globals ++ q.source.outputs) start s
    else ((M.Holds (s pc.name) ∨ Keeps (q.globals ++ q.source.outputs) start s) ∨
        a.Performs q.source q.globals start s) ∧
      (M.Holds (s pc.name) → Keeps (q.globals ++ q.source.outputs) start s) := by
  have hm : stepChecker (q.inLoops.contains b.label) ∈ (q.outBlock b).successors :=
    List.one_le_count_iff.mp (h.count_eq_one hb he (.inr rfl)).ge
  cases hi : q.inLoops.contains b.label with
  | true =>
    rw [hi] at hm
    have hp := hc (.sink Label.loopRefinement
      (q.refinement.assertLoopGlobals ++ q.refinement.assertLoopOutputs))
      (h.checkers_mem (by simp [checkers])) hm (by simp [Block.sink])
    rw [Block.sink, refinement_eq ha] at hp
    exact ((Refinement.passes_assertLoop hM htr).mp hp).1
  | false =>
    rw [hi] at hm
    have hp := hc _ (h.checkers_mem (refinement_mem_checkers q)) hm (by simp [Block.sink])
    rw [Block.sink, refinement_eq ha] at hp
    obtain ⟨hs, hpc, -⟩ := (Refinement.passes_assertStep hM htr).mp hp
    exact ⟨hs, hpc⟩

include h in
/-- What the check says that a return leads to, whatever block jumps there. -/
theorem of_passesChecks_returning (ha : q.plan.action? = some a) (hM : M.Standard) {c : Block}
    (hm : Label.returning ∈ c.successors) (htr : (q.refining a).Tracks start s)
    (hc : q.PassesChecks pre q.implementation c s) :
    ((M.Holds (s pc.name) ∨ Keeps (q.globals ++ q.source.outputs) start s) ∨
        a.Performs q.source q.globals start s) ∧
      (M.Holds (s pc.name) → Keeps (q.globals ++ q.source.outputs) start s) ∧
      (M.Holds (s ok.name) ∨ a.Performs q.source q.globals start s) := by
  have hp := hc _ (h.checkers_mem (returning_mem_checkers q)) hm (by simp [Block.sink])
  rw [Block.sink, refinement_eq ha] at hp
  obtain ⟨hs, hpc, hok, -⟩ := (Refinement.passes_returning hM htr).mp hp
  exact ⟨hs, hpc, hok⟩

include h in
/-- **What the check at a return says.** -/
theorem of_passesChecks_return (ha : q.plan.action? = some a) (hM : M.Standard) {b : Block}
    (hb : b ∈ q.base.blocks) (hret : Label.unifiedReturn ∈ (q.outBlock b).successors)
    (htr : (q.refining a).Tracks start s)
    (hc : q.PassesChecks pre q.implementation (q.outBlock b) s) :
    ((M.Holds (s pc.name) ∨ Keeps (q.globals ++ q.source.outputs) start s) ∨
        a.Performs q.source q.globals start s) ∧
      (M.Holds (s pc.name) → Keeps (q.globals ++ q.source.outputs) start s) ∧
      (M.Holds (s ok.name) ∨ a.Performs q.source q.globals start s) := by
  have ht : b.transfer = .ret := by
    by_contra ht
    refine h.notMem_outBlock hb ht (by decide) ?_ hret
    intro hx
    obtain ⟨-, hl⟩ := hx
    cases hi : q.inLoops.contains b.label <;> rw [hi] at hl <;> exact absurd hl (by decide)
  have hm : Label.returning ∈ (q.outBlock b).successors := by
    rw [Block.successors, (h.checked_outBlock hb).ret ht]
    exact List.mem_cons_self
  exact h.of_passesChecks_returning ha hM hm htr hc

include h in
theorem initial_notMem_outBlock {b : Block} (hb : b ∈ q.base.blocks) :
    Label.initial ∉ (q.outBlock b).successors := by
  by_cases ht : b.transfer = .ret
  · rw [Block.successors, (h.checked_outBlock hb).ret ht]
    decide
  · refine h.notMem_outBlock hb ht (by decide) ?_
    intro hx
    obtain ⟨-, hl⟩ := hx
    cases hi : q.inLoops.contains b.label <;> rw [hi] at hl <;> exact absurd hl (by decide)

include h in
theorem mem_source_labels_of_initial {l : String}
    (hl : l ∈ (q.initialBlock q.others).successors) : l ∈ q.source.labels := by
  rw [Block.successors, h.initialBlock_transfer] at hl
  exact List.mem_of_mem_head? (Option.mem_toList.mp hl)

include h in
/-- A block with a yield is in a yielding loop only if the blocks that jump to it are. -/
theorem inLoops_of_successor {b d : Block} (hb : b ∈ q.base.blocks)
    (hd : d.label ∈ b.successors) (hn : d.label ∉ q.source.labels)
    (hi : q.inLoops.contains d.label = true) : q.inLoops.contains b.label = true := by
  rw [List.contains_iff_mem] at hi ⊢
  exact FlowGraph.mem_blocksInLoops_of_edge h.nodup_base hi
    (fun hh => hn (h.mem_labels_of_mem_headers hh)) ⟨b, hb, rfl, hd⟩

include h in
/-- A block that jumps to one where other threads run is that of a block at which a step ends. -/
theorem exists_endsStep {b c : Block} {m : Command} {rest : List Command}
    (hu : q.Underway c start s) (hb : b ∈ q.base.blocks) (hd : b.label ∈ c.successors)
    (hy : b.commands = m :: rest) (hm : m.isPreemption = true) :
    ∃ b' ∈ q.base.blocks, c = q.outBlock b' ∧ b.label ∈ b'.successors ∧ q.EndsStep b' := by
  rcases hu with ⟨b', hb', rfl⟩ | ⟨rfl, -⟩
  · have hs : b.label ∈ b'.successors := h.mem_successors_of_outBlock hb' hd
      (Implementation.mem_labels.mpr ⟨b, hb, rfl⟩)
    exact ⟨b', hb', rfl, hs, b.label, hs, .inr ⟨b, hb, rfl, m, rest, hy, hm⟩⟩
  · exact absurd (h.mem_source_labels_of_initial hd) (label_notMem_of_head hb hy hm)

end WellFormed

/-! ## Runs -/

/-- The account of fragments for an action. -/
abbrev Accounts (q : Sequential) (a : AtomicAction) (pc ok : Prop) (fs : List (Fragment M)) :
    Prop :=
  Accounted (fun f => Keeps (q.globals ++ q.source.outputs) f.start f.stop)
    (fun f => Keeps q.globals f.start f.stop)
    (fun f => a.Performs q.source q.globals f.start f.stop) pc ok fs

namespace Apart

variable (h : q.Apart) (hw : q.WellFormed) (ha : q.plan.action? = some a) (hM : M.Standard)

include hw ha hM in
/-- A fragment that ends at the head of a yielding loop. -/
theorem accounts_loop {c d : Block} {fs : List (Fragment M)} (hu : q.Underway c start s)
    (htr : (q.refining a).Tracks start s) (hd : d.label ∈ c.successors)
    (hh : d.label ∈ q.headers) (hc : q.PassesChecks pre q.implementation c s)
    (hfs : q.Accounts a (M.Holds (s pc.name)) (M.Holds (s ok.name)) fs) :
    q.Accounts a (M.Holds (s pc.name)) (M.Holds (s ok.name))
      (⟨start, s, !q.inLoops.contains c.label⟩ :: fs) := by
  rcases hu with ⟨b, hb, rfl⟩ | ⟨rfl, rfl⟩
  · have hm : d.label ∈ q.base.labels := (List.mem_filter.mp hh).1
    have he : q.EndsStep b := ⟨d.label, hw.mem_successors_of_outBlock hb hd hm, .inl hh⟩
    have hp := hw.of_passesChecks ha hM hb he htr hc
    show Accounted _ _ _ _ _ (⟨start, s, !q.inLoops.contains b.label⟩ :: fs)
    cases hi : q.inLoops.contains b.label with
    | true =>
      rw [hi, if_pos rfl] at hp
      exact .still hp hfs
    | false =>
      rw [hi, if_neg (by decide)] at hp
      exact .entered rfl hp.1 hp.2 hfs
  · exact .still (fun _ _ => rfl) hfs

include hw ha hM in
/-- A fragment that ends at a yield. -/
theorem accounts_yield {b c : Block} {id : CommandId} {rest : List Command} {m : M.State}
    {fs : List (Fragment M)} (hu : q.Underway c start s) (htr : (q.refining a).Tracks start s)
    (hb : b ∈ q.base.blocks) (hd : b.label ∈ c.successors)
    (hy : b.commands = .yield id :: rest) (hc : q.PassesChecks pre q.implementation c s)
    (hm : Runs (q.surroundings pre) (q.beforeHavoc (q.inLoops.contains b.label) rest) s m)
    (hfs : q.Accounts a (M.Holds (m pc.name)) (M.Holds (m ok.name)) fs) :
    q.Accounts a (M.Holds (s pc.name)) (M.Holds (s ok.name)) (⟨start, s, false⟩ :: fs) := by
  have hn := label_notMem_of_head hb hy rfl
  obtain ⟨b', hb', rfl, hs, he⟩ := hw.exists_endsStep hu hb hd hy rfl
  have hp := hw.of_passesChecks ha hM hb' he htr hc
  have hbef := runs_beforeHavoc ha hM htr hm
  cases hi : q.inLoops.contains b.label with
  | true =>
    rw [hw.inLoops_of_successor hb' hs hn hi, if_pos rfl] at hp
    rw [hi, if_pos rfl] at hbef
    rw [hbef] at hfs
    exact .still hp hfs
  | false =>
    rw [hi, if_neg (by decide)] at hbef
    -- Outside of loops the account is kept, whichever check the fragment has passed.
    cases hi' : q.inLoops.contains b'.label with
    | true =>
      rw [hi', if_pos rfl] at hp
      exact .noted rfl (.inl (.inr hp)) (fun _ => hp) hbef.1 hbef.2 hfs
    | false =>
      rw [hi', if_neg (by decide)] at hp
      exact .noted rfl hp.1 hp.2 hbef.1 hbef.2 hfs

include h hw ha hM in
/-- **The account of a run**, from the end of any of its blocks on. -/
theorem accounted {c : Block} {fs : List (Fragment M)}
    (hr : q.Run pre q.implementation c start s fs) (hu : q.Underway c start s)
    (htr : (q.refining a).Tracks start s) :
    q.Accounts a (M.Holds (s pc.name)) (M.Holds (s ok.name)) fs := by
  induction hr with
  | ret hs hc =>
    rcases hu with ⟨b, hb, rfl⟩ | ⟨rfl, -⟩
    · obtain ⟨hstep, hpc, hok⟩ := hw.of_passesChecks_return ha hM hb hs htr hc
      exact .last rfl hstep hpc hok
    · exact absurd (by decide) (hw.unreserved _ (hw.mem_source_labels_of_initial hs))
  | step hd hl hs hn hc hr _ ih =>
    obtain ⟨b, hb, hbl, rfl⟩ := hw.exists_outBlock hd hl
    have hk := h.runs_plain hw hb hn hr
    have := ih (.inl ⟨b, hb, rfl⟩) (tracks_of_keeps ha htr hk)
    rwa [hk _ (pc_mem_marks ha), hk _ (ok_mem_marks ha)] at this
  | loop hd hs hh hc hr _ ih =>
    obtain ⟨b, hb, hbl, rfl⟩ := hw.exists_outBlock hd (List.mem_filter.mp hh).1
    obtain ⟨htr', hp, hk⟩ := h.runs_loop hw ha hb hh hr
    have hfs := ih (.inl ⟨b, hb, rfl⟩) htr'
    rw [hp, hk] at hfs
    exact accounts_loop hw ha hM hu htr hs hh hc hfs
  | @yield b c d start s m n t fs id rest after hd hs hb hl hy hc hcut hm hn ht _ ih =>
    obtain rfl := hw.eq_outBlock hb hd hl.symm
    obtain ⟨htr', hp, hk⟩ := h.runs_of_cut hw ha hb hy hcut hn ht
    have hfs := ih (.inl ⟨b, hb, rfl⟩) htr'
    rw [hp, hk] at hfs
    exact accounts_yield hw ha hM hu htr hb hs hy hc hm hfs

end Apart

end Sequential

end LayerCheck
