import LayerCheck.Proofs.Sequential.Stretches

/-!
# Marked parallel calls

A parallel call may be marked as the one that performs the action.  Then it is the only one, no
fragment before it changes the globals, none after it changes anything, and its marked component
performs the action unless a fragment before it did.  The fragment that ends at the call is left
out of the account: the check that it passes lets it perform the action, and the component starts
from a state of its own.

* `Sequential.Tallies`, `Sequential.Apart.tallied`: the account of a run.
* `Sequential.PassesPrepared`, `Sequential.PreparedRun`: the prepared checks of components.
* `Sequential.Produces.marked_calls_accounted`: what runs with a marked call consist of.
-/

namespace LayerCheck

open Interpretation Command

namespace Sequential

open ActionRefinement

variable {M : Interpretation} {q : Sequential} {a : AtomicAction} {pre start s t : M.State}

/-! ## Prepared checks -/

/-- All assertions hold in the checks of refinement behind the prepared checks that the block jumps
to. -/
def PassesPrepared (q : Sequential) (pre : M.State) (j : Implementation) (c : Block)
    (s : M.State) : Prop :=
  ∀ k ∈ j.blocks, k.label ∈ c.successors → k.label ∈ q.preparedLabels →
    ∀ t, Runs (q.surroundings pre) k.commands s t → q.PassesChecks pre j k t

/-- The prepared check `r` is entered in `s`.  It takes `m`, an arbitrary state in which the gate
holds, to `t`. -/
def PreparedRun (q : Sequential) (pre : M.State) (r : Block) (s m t : M.State) : Prop :=
  Runs (q.surroundings pre) (q.setting.havocGlobals ++ q.refinement.assumeGate) s m ∧
    Runs (q.surroundings pre) (q.store ++ r.commands) m t

theorem runs_completed_iff {c : Component} :
    Runs (q.surroundings pre) (q.completed c).commands s t ↔
      ∃ m, q.PreparedRun pre c.block s m t := by
  show Runs _ (_ ++ _ ++ q.store ++ c.block.commands) s t ↔ _
  rw [List.append_assoc, runs_append]
  rfl

/-- What is known of a marked call that ends `f`, if the flag `ok` is set: a run of the prepared
check of a marked component performs the action or changes nothing, and performs the action if no
fragment has. -/
def ComponentsPerform (q : Sequential) (a : AtomicAction) (pre : M.State) (j : Implementation)
    (f : Stretch M) (ok : Prop) : Prop :=
  ∀ p, f.call? = some p → ∀ call ∈ p.calls,
    (∀ d ∈ q.metComponents, d.id = call.id → d.refining = true) →
    ∀ r, q.setting.refinementBlocks.get? call.id = some r → q.PassesPrepared pre j f.last f.stop →
    ∀ m t, q.PreparedRun pre r f.stop m t →
      (Keeps (q.globals ++ q.source.outputs) m t ∨ a.Performs q.source q.globals m t) ∧
      (ok ∨ a.Performs q.source q.globals m t)

/-- The account of fragments for an action. -/
abbrev Tallies (q : Sequential) (a : AtomicAction) (pre : M.State) (pc ok : Prop)
    (fs : List (Stretch M)) : Prop :=
  Tallied (fun f => Keeps (q.globals ++ q.source.outputs) f.start f.stop)
    (fun f => Keeps q.globals f.start f.stop)
    (fun f => a.Performs q.source q.globals f.start f.stop)
    (q.ComponentsPerform a pre q.implementation) pc ok fs

/-- The prepared checks write none of the added variables. -/
def PreparedApart (q : Sequential) : Prop :=
  ∀ r ∈ (q.setting.preparedBlocks q.source).values, ∀ c ∈ r.commands, ∀ v ∈ q.locals,
    v.name ∉ c.writes

theorem contains_inLoops_of_headers (h : q.headers = []) (l : String) :
    q.inLoops.contains l = false := by
  rw [Bool.eq_false_iff]
  intro hl
  obtain ⟨k, hk, -⟩ := (contains_inLoops_iff (b := { label := l })).mp hl
  rw [h] at hk
  exact List.not_mem_nil hk

namespace Apart

variable (h : q.Apart) (hw : q.WellFormed) (ha : q.plan.action? = some a) (hM : M.Standard)

include h ha in
/-- A run of a prepared check: copies of its first state are kept, and the flags stay. -/
theorem of_preparedRun (hp : q.PreparedApart) {r : Block}
    (hr : r ∈ (q.setting.preparedBlocks q.source).values) {m : M.State}
    (hrun : q.PreparedRun pre r s m t) :
    (q.refining a).Tracks m t ∧ t pc.name = s pc.name ∧ t ok.name = s ok.name := by
  obtain ⟨hm, ht⟩ := hrun
  obtain ⟨n, hn, hgate⟩ := runs_append.mp hm
  obtain rfl := hgate.eq_of_isPredicate fun _ hc => isPredicate_of_mem_assumeGate hc
  obtain ⟨u, hu, hcs⟩ := runs_append.mp ht
  obtain ⟨htr, hpc, hok⟩ := h.runs_store ha hu
  have hglobals := h.keeps_of_runs_havocGlobals hn
  have hkeep := h.keeps_of_runs (hp r hr) hcs
  refine ⟨tracks_of_keeps ha htr hkeep, ?_, ?_⟩
  · rw [hkeep _ (pc_mem_marks ha), hpc, hglobals _ (pc_mem_marks ha)]
  · rw [hkeep _ (ok_mem_marks ha), hok, hglobals _ (ok_mem_marks ha)]

include h hw ha hM in
/-- **What the prepared check of a marked component says**, where nothing has been done before. -/
theorem of_passesPrepared (hp : q.PreparedApart) {b c : Block} (hb : b ∈ q.base.blocks)
    (hc : c ∈ q.base.blocks) (hs : c.label ∈ b.successors) {p : ParCall} {rest : List Command}
    (hy : c.commands = .par p :: rest) (hpc : ¬ M.Holds (s pc.name)) :
    q.ComponentsPerform a pre q.implementation ⟨start, s, q.outBlock b, some p⟩
      (M.Holds (s ok.name)) := by
  intro p' hp' call hcall hmarked r hr hpass m t hrun
  obtain rfl := Option.some_inj.mp hp'
  obtain ⟨d, hfirst, rfl⟩ := hw.exists_first hc hy hcall hr
  have hmet := List.mem_of_find?_eq_some hfirst
  have hid : d.id = call.id := by simpa using List.find?_some hfirst
  have hd : q.completed d ∈ q.implementation.blocks := by
    refine hw.mem_implementation_iff.mpr (.inr (.inr (.inr (mem_spliced_iff.mpr ⟨d, ?_, rfl⟩))))
    rw [hid]
    exact hfirst
  have hjump : (q.completed d).label ∈ (q.outBlock b).successors :=
    List.one_le_count_iff.mp (hw.count_jumps hc hy hcall hr hb hs).ge
  have hchecks := hpass _ hd hjump (hw.label_mem_preparedLabels hmet) t
    (runs_completed_iff.mpr ⟨m, hrun⟩)
  have hret : Label.returning ∈ (q.completed d).successors := by
    show _ ∈ (d.block.transfer.add _).targets
    rw [hmarked d hmet hid]
    exact Transfer.mem_add.mpr (.inr rfl)
  obtain ⟨htr, hpc', hok'⟩ :=
    h.of_preparedRun ha hp (hw.prepared_metComponents.block_mem hmet) hrun
  obtain ⟨hstep, -, hperform⟩ := hw.of_passesChecks_returning ha hM hret htr hchecks
  rw [hpc'] at hstep
  rw [hok'] at hperform
  exact ⟨hstep.imp_left fun hx => hx.resolve_left hpc, hperform⟩

/-! ## Parallel calls -/

include h hw ha in
/-- **After a parallel call a fragment begins**, in whatever state the call has left. -/
theorem runs_afterCall {b : Block} (hb : b ∈ q.base.blocks) {p : ParCall} {rest : List Command}
    (hc : b.commands = .par p :: rest) {n : M.State}
    (hn : Step (q.surroundings pre) s n (.call p.aggregatorCall))
    (hr : Runs (q.surroundings pre) (q.afterCall p rest) n t) :
    (q.refining a).Tracks n t ∧ t pc.name = s pc.name ∧ t ok.name = s ok.name := by
  have hpar : .par p ∈ b.commands := hc ▸ List.mem_cons_self
  have hkeep : Keeps q.marks s n := by
    refine h.keeps_of_runs (fun c hm v hv => ?_) (runs_singleton.mpr hn)
    rw [List.mem_singleton.mp hm]
    -- The call writes what the parallel call did.
    exact h.notMem_writes hw hb hpar hv
  rw [afterCall, List.append_assoc, runs_append] at hr
  obtain ⟨m, hm, hr⟩ := hr
  obtain rfl := hm.eq_of_isPredicate fun _ hc => isPredicate_of_mem_assumeGate hc
  have hrest : ∀ c ∈ rest, ∀ v ∈ q.locals, v.name ∉ c.writes := fun c hm v hv =>
    h.notMem_writes hw hb (hc ▸ List.mem_cons_of_mem _ hm) hv
  obtain ⟨htr, hp, hk⟩ := h.runs_beginStep_append ha hrest hr
  exact ⟨htr, hp.trans (hkeep _ (pc_mem_marks ha)), hk.trans (hkeep _ (ok_mem_marks ha))⟩

include h hw ha hM in
/-- A fragment that ends at a parallel call. -/
theorem tallies_call (hp : q.PreparedApart) (hloops : q.headers = []) {b c : Block} {p : ParCall}
    {rest : List Command} {m : M.State} {fs : List (Stretch M)} (hu : q.Underway c start s)
    (htr : (q.refining a).Tracks start s) (hb : b ∈ q.base.blocks) (hd : b.label ∈ c.successors)
    (hy : b.commands = .par p :: rest) (hc : q.PassesChecks pre q.implementation c s)
    (hm : Runs (q.surroundings pre) (q.beforeCall (q.inLoops.contains b.label) p) s m)
    (hfs : q.Tallies a pre (M.Holds (m pc.name)) (M.Holds (m ok.name)) fs) :
    q.Tallies a pre (M.Holds (s pc.name)) (M.Holds (s ok.name)) (⟨start, s, c, some p⟩ :: fs) := by
  obtain ⟨b', hb', rfl, hs, he⟩ := hw.exists_endsStep hu hb hd hy rfl
  have hpass := hw.of_passesChecks ha hM hb' he htr hc
  rw [contains_inLoops_of_headers hloops, if_neg (by decide)] at hpass
  rw [contains_inLoops_of_headers hloops, beforeCall, if_neg (by decide), refinement_eq ha] at hm
  cases hr : p.isRefining with
  | true =>
    rw [hr, if_pos rfl] at hm
    obtain ⟨hpc, hpc', -⟩ := Refinement.of_runs_endMarkedStep hM hm
    exact .marked ⟨p, rfl, hr⟩ hpass.1 hpc
      (h.of_passesPrepared hw ha hM hp hb' hb hs hy hpc) hpc' hfs
  | false =>
    rw [hr, if_neg (by decide)] at hm
    obtain ⟨hpc, hok, -⟩ := Refinement.of_runs_endStep hM htr hm
    refine .noted ?_ hpass.1 hpass.2 hpc hok hfs
    intro hmarked
    obtain ⟨p', hp', hr'⟩ := hmarked
    rw [Option.some_inj.mp hp', hr'] at hr
    cases hr

include hw ha hM in
/-- A fragment that ends at a yield. -/
theorem tallies_yield (hloops : q.headers = []) {b c : Block} {id : CommandId}
    {rest : List Command} {m : M.State} {fs : List (Stretch M)} (hu : q.Underway c start s)
    (htr : (q.refining a).Tracks start s) (hb : b ∈ q.base.blocks) (hd : b.label ∈ c.successors)
    (hy : b.commands = .yield id :: rest) (hc : q.PassesChecks pre q.implementation c s)
    (hm : Runs (q.surroundings pre) (q.beforeHavoc (q.inLoops.contains b.label) rest) s m)
    (hfs : q.Tallies a pre (M.Holds (m pc.name)) (M.Holds (m ok.name)) fs) :
    q.Tallies a pre (M.Holds (s pc.name)) (M.Holds (s ok.name)) (⟨start, s, c, none⟩ :: fs) := by
  obtain ⟨b', hb', rfl, -, he⟩ := hw.exists_endsStep hu hb hd hy rfl
  have hpass := hw.of_passesChecks ha hM hb' he htr hc
  have hbef := runs_beforeHavoc ha hM htr hm
  rw [contains_inLoops_of_headers hloops, if_neg (by decide)] at hpass hbef
  exact .noted (Stretch.not_marked_of_none rfl) hpass.1 hpass.2 hbef.1 hbef.2 hfs

include h hw ha hM in
/-- **The account of a run**, from the end of any of its blocks on. -/
theorem tallied (hp : q.PreparedApart) (hloops : q.headers = []) {c : Block}
    {fs : List (Stretch M)} (hr : q.CallRun pre q.implementation c start s fs)
    (hu : q.Underway c start s) (htr : (q.refining a).Tracks start s) :
    q.Tallies a pre (M.Holds (s pc.name)) (M.Holds (s ok.name)) fs := by
  induction hr with
  | ret hs hc =>
    rcases hu with ⟨b, hb, rfl⟩ | ⟨rfl, -⟩
    · obtain ⟨hstep, hpc, -⟩ := hw.of_passesChecks_return ha hM hb hs htr hc
      exact .last (Stretch.not_marked_of_none rfl) hstep hpc
    · exact absurd (by decide) (hw.unreserved _ (hw.mem_source_labels_of_initial hs))
  | step hd hl hs hn hc hr _ ih =>
    obtain ⟨b, hb, hbl, rfl⟩ := hw.exists_outBlock hd hl
    have hk := h.runs_plain hw hb hn hr
    have := ih (.inl ⟨b, hb, rfl⟩) (tracks_of_keeps ha htr hk)
    rwa [hk _ (pc_mem_marks ha), hk _ (ok_mem_marks ha)] at this
  | @yield b c d start s m n t fs id rest after hd hs hb hl hy hc hcut hm hn ht _ ih =>
    obtain rfl := hw.eq_outBlock hb hd hl.symm
    obtain ⟨htr', hpc, hok⟩ := h.runs_of_cut hw ha hb hy hcut hn ht
    have hfs := ih (.inl ⟨b, hb, rfl⟩) htr'
    rw [hpc, hok] at hfs
    exact tallies_yield hw ha hM hloops hu htr hb hs hy hc hm hfs
  | @call b c d start s m n t fs p rest after hd hs hb hl hy hc hcut hm hn ht _ ih =>
    obtain rfl := hw.eq_outBlock hb hd hl.symm
    have hafter : after = q.afterCall p rest := by
      rw [commands_outBlock_of_par hy] at hcut
      exact (List.cons.inj (List.append_cancel_left hcut)).2.symm
    rw [hafter] at ht
    obtain ⟨htr', hpc, hok⟩ := h.runs_afterCall hw ha hb hy hn ht
    have hfs := ih (.inl ⟨b, hb, rfl⟩) htr'
    rw [hpc, hok] at hfs
    exact h.tallies_call hw ha hM hp hloops hu htr hb hs hy hc hm hfs

end Apart

/-! ## Runs with a marked call -/

/-- A run consists of `before`, the fragment `f` that ends at the marked call `p`, and `after`. -/
structure SplitAt (q : Sequential) (a : AtomicAction) (pre : M.State) (j : Implementation)
    (before : List (Stretch M)) (f : Stretch M) (p : ParCall) (after : List (Stretch M)) :
    Prop where
  call : f.call? = some p
  marked : p.isRefining = true
  /-- No other call is marked. -/
  alone : ∀ g ∈ before ++ after, ¬ g.Marked
  /-- No other fragment changes the globals. -/
  steady : ∀ g ∈ before ++ after, Keeps q.globals g.start g.stop
  /-- After the call nothing changes. -/
  still : ∀ g ∈ after, Keeps (q.globals ++ q.source.outputs) g.start g.stop
  /-- Every fragment performs the action or changes nothing. -/
  accounted : ∀ g ∈ before ++ f :: after,
    Keeps (q.globals ++ q.source.outputs) g.start g.stop ∨
      a.Performs q.source q.globals g.start g.stop
  /-- A marked component performs the action, unless a fragment before the last one has. -/
  components : q.ComponentsPerform a pre j f
    (∃ g ∈ before, a.Performs q.source q.globals g.start g.stop)

/-- **A marked call is the only one, and the fragment that ends at it the only one that may change
the globals.**  The others leave them alone, and those after the call change nothing at all.  The
fragment itself performs the action or changes nothing, and so does every marked component, in a
state of its own. -/
theorem Produces.marked_calls_accounted {p : Program} {out : Program × LayerOutput}
    {j : Implementation} (h : q.Produces p out j) (hn : q.source.labels.Nodup)
    (hf : q.setting.copies.Faithful q.source) (hloops : q.headers = []) (hx : q.Apart)
    (hprep : q.PreparedApart) (ha : q.plan.action? = some a) (hM : M.Standard) {first : Block}
    (hj : first ∈ j.blocks) (hl : first.label = Label.initial)
    (hi : Runs (q.surroundings pre) first.commands start s) :
    (q.PreparedPlain → q.Execution pre j first s → ∃ fs, q.CallRun pre j first s s fs) ∧
    ∀ fs, q.CallRun pre j first s s fs → (∃ f ∈ fs, f.Marked) →
      ∃ before f call after, fs = before ++ f :: after ∧ q.SplitAt a pre j before f call after ∧
        ((∀ g ∈ fs, Keeps q.globals g.start g.stop) ↔ Keeps q.globals f.start f.stop) := by
  have hw := h.wellFormed hn hf
  rw [h.eq_implementation] at hj ⊢
  have hfirst : first = q.initialBlock q.others :=
    Implementation.eq_of_label_eq hw.nodup_labels hj hw.initialBlock_mem hl
  rw [hfirst] at hi ⊢
  refine ⟨fun hp he => hw.exists_callRun hM hp hloops he (.inr rfl) s, fun fs hr hm => ?_⟩
  obtain ⟨htr, -, hok⟩ := hx.runs_initialBlock ha hM hi
  have htally := hx.tallied hw ha hM hprep hloops hr (.inr ⟨rfl, rfl⟩) htr
  obtain ⟨-, before, f, after, rfl, hmark, hbefore, hafter, hcalled⟩ := htally.exists_split hm
  obtain ⟨call, hcall, hrefining⟩ := hmark
  have hothers : ∀ g ∈ before ++ after, ¬ g.Marked ∧ Keeps q.globals g.start g.stop :=
    List.forall_mem_append.mpr ⟨hbefore, fun g hg =>
      ⟨(hafter g hg).1, fun v hv => (hafter g hg).2 v (List.mem_append_left _ hv)⟩⟩
  have hnone : (M.Holds (s ok.name) ∨
      ∃ g ∈ before, a.Performs q.source q.globals g.start g.stop) =
        ∃ g ∈ before, a.Performs q.source q.globals g.start g.stop :=
    propext (or_iff_right hok)
  refine ⟨before, f, call, after, rfl, ⟨hcall, hrefining, fun g hg => (hothers g hg).1,
    fun g hg => (hothers g hg).2, fun g hg => (hafter g hg).2, htally.still_or_performs,
    hnone ▸ hcalled⟩, ?_⟩
  constructor
  · exact fun hk => hk f (List.mem_append_right _ List.mem_cons_self)
  · intro hk g hg
    rcases List.mem_append.mp hg with hg | hg
    · exact (hothers g (List.mem_append_left _ hg)).2
    · rcases List.mem_cons.mp hg with rfl | hg
      · exact hk
      · exact (hothers g (List.mem_append_right _ hg)).2

end Sequential

/-! ## A change before a marked call

The counter is incremented before a call that is marked, and once more by the component of the
call.  The fragment before the call passes the check that lets it perform the action, and the call
sets the flags without a look at that fragment. -/

namespace Counter

open LayerCheck.Sequential

/-- A call whose component is marked as the one that performs the action. -/
def markedCall : ParCall :=
  { id := 2, calls := [{ id := 3, callee := "Work", attributes := ["refines"] }] }

/-- The counter is incremented before the call. -/
def beforeMarked : Block := { label := "A", commands := [increment, .par markedCall] }

/-- The prepared check of the component: it increments the counter as well. -/
def component : Block := { label := "R", commands := [increment], transfer := .goto [] }

def calling : Sequential :=
  { sequential [beforeMarked] with
    setting := { setting with
      copies := { implementations := .ofList [("Main_1", ⟨"Main", "Main"⟩)] }
      refinementBlocks := .ofList [(3, component)] } }

theorem exists_produces_calling : ∃ out,
    calling.Produces (program [beforeMarked]) out calling.implementation := by
  have hc : calling.setting.checkConcurrent 1 (program [beforeMarked]) (copy [beforeMarked]) =
      .ok () := by
    refine Setting.checkConcurrent_of_reducible ?_ rfl
    cbv
  have hcopy : calling.setting.planCopy 1 (program [beforeMarked]) "Main_1" ⟨"Main", "Main"⟩ =
      .ok calling.plan := by
    have h : calling.setting.planCopy 1 (program [beforeMarked]) "Main_1" ⟨"Main", "Main"⟩ = (do
        (copy [beforeMarked]).checkBlocks
        calling.setting.checkConcurrent 1 (program [beforeMarked]) (copy [beforeMarked])
        return calling.plan) := rfl
    rw [h, hc]
    rfl
  have hp : calling.setting.plan 1 (program [beforeMarked]) = .ok [calling.plan] := by
    have he : calling.setting.copies.implementations.entries = [("Main_1", ⟨"Main", "Main"⟩)] :=
      rfl
    rw [Setting.plan, he]
    simp only [List.mapM_cons, hcopy]
    rfl
  exact ⟨_, Sequential.Produces.of_plan hp (List.mem_singleton_self _) rfl⟩

def toMarked : Block := { label := "A", commands := [increment], transfer := .goto ["A_0"] }

def atMarked : Block := { label := "A_0", commands := [.par markedCall] }

theorem blocks_base_calling : calling.base.blocks = [toMarked, atMarked] := by
  unfold Sequential.base
  cbv

theorem headers_calling : calling.headers = [] := by
  rw [Sequential.headers, Implementation.labels, blocks_base_calling]
  rfl

theorem apart_calling : calling.Apart where
  names := by decide
  body := by decide

theorem preparedApart_calling : calling.PreparedApart := by
  intro r hr
  rw [List.mem_singleton.mp hr]
  decide

theorem preparedPlain_calling : calling.PreparedPlain := by
  intro r hr
  rw [show r = component from List.mem_singleton.mp hr]
  exact ⟨.cons rfl .nil, rfl⟩

theorem metComponents_calling : calling.metComponents = [⟨3, true, component⟩] := by
  rw [metComponents, heads, blocks_base_calling]
  rfl

theorem commands_toMarked : (calling.outBlock toMarked).commands = [increment] := by
  show (if "A" ∈ calling.headers then _ else _) = _
  rw [headers_calling]
  rfl

theorem successors_toMarked : (calling.outBlock toMarked).successors =
    ["A_0", "R", Label.noninterference, Label.refinement] := by
  have hin : calling.inLoops.contains "A" = false :=
    contains_inLoops_of_headers headers_calling "A"
  rw [Block.successors, outBlock, outTransfer, added, headerChecks, heads, headers_calling,
    blocks_base_calling, show toMarked.label = "A" from rfl, hin]
  decide

/-- The counter and its copy; both flags are set. -/
noncomputable def bothSet (m n : Int) : model.State :=
  Function.update (Function.update (state m n) ActionRefinement.pc.name (model.bool true))
    ActionRefinement.ok.name (model.bool true)

theorem update_bothSet_shadow (m n k : Int) :
    Function.update (bothSet m n) (Snapshot.shadow x).name (model.int k) = bothSet m k := by
  have hok : ActionRefinement.ok.name ≠ (Snapshot.shadow x).name := by decide
  have hpc : ActionRefinement.pc.name ≠ (Snapshot.shadow x).name := by decide
  rw [bothSet, Function.update_comm hok, Function.update_comm hpc, update_state_shadow, bothSet]

/-- What increments the counter performs the action, whatever the state. -/
theorem performs_of_eq {s t : model.State}
    (h : t x.name = model.binary .add (s x.name) (model.int 1)) :
    action.Performs calling.source calling.globals s t :=
  truth_eq.mpr h

theorem runs_beforeCall_calling (σ : Surroundings model) (m n : Int) :
    Runs σ (calling.beforeCall false markedCall) (state m n) (bothSet m n) :=
  ⟨state m n, ⟨standard_model.not.mpr (not_holds_flag m n (by decide)), rfl⟩, bothSet m n, rfl, rfl⟩

theorem step_call_calling (pre : model.State) (m k n : Int) :
    Step (calling.surroundings pre) (bothSet m n) (bothSet k n)
      (.call markedCall.aggregatorCall) := by
  intro y hy _
  have hne : y ≠ x.name := fun h => hy (h ▸ List.mem_cons_self)
  have hstate : state k n y = state m n y := by rw [state, state, if_neg hne, if_neg hne]
  simp only [bothSet, Function.update_apply, hstate]

theorem runs_afterCall_calling (σ : Surroundings model) (m n : Int) :
    Runs σ (calling.afterCall markedCall []) (bothSet m n) (bothSet m m) :=
  ⟨bothSet m n, ⟨standard_model.or.mpr (.inr rfl), rfl⟩, bothSet m m,
    (update_bothSet_shadow m n m).symm, rfl⟩

theorem tracks_bothSet (m n : Int) :
    (calling.refining action).Tracks (bothSet m n) (bothSet m m) where
  globals g hg := by
    rw [List.mem_singleton.mp hg]
    rfl
  outputs o ho := absurd ho List.not_mem_nil

theorem runs_initial_calling (σ : Surroundings model) :
    Runs σ (calling.initialBlock calling.others).commands (state 0 0) (state 0 0) := by
  rw [commands_initialBlock]
  have h := runs_initial σ
  rw [commands_initialBlock] at h
  exact h

section Run

variable (h : calling.WellFormed) (pre : model.State)

include h

/-- After the call nothing changes, and the body returns. -/
theorem run_atMarked : calling.CallRun pre calling.implementation (calling.outBlock atMarked)
    (bothSet 2 0) (bothSet 2 2) [⟨bothSet 2 0, bothSet 2 2, calling.outBlock atMarked, none⟩] := by
  have hsucc : (calling.outBlock atMarked).successors =
      [Label.returning, Label.unifiedReturn, Label.noninterference] := rfl
  have hstill : Keeps (calling.globals ++ calling.source.outputs) (bothSet 2 0) (bothSet 2 2) :=
    fun v hv => by
      rw [List.mem_singleton.mp hv]
      rfl
  have hok : model.Holds (bothSet 2 2 ActionRefinement.ok.name) := Function.update_self ..
  refine .ret ?_ (h.passesChecks _ (WellFormed.returning_mem_checkers _) ?_ ?_)
  · rw [hsucc]
    decide
  · rw [hsucc]
    decide
  · exact (Refinement.passes_returning standard_model (tracks_bothSet 2 0)).mpr
      ⟨.inl (.inr hstill), fun _ => hstill, .inl hok, fun _ _ => passes_stop⟩

/-- **The counter is incremented before the call and by it**, and all checks are passed. -/
theorem run_calling : calling.CallRun pre calling.implementation
    (calling.initialBlock calling.others) (state 0 0) (state 0 0)
    [⟨state 0 0, state 1 0, calling.outBlock toMarked, some markedCall⟩,
      ⟨bothSet 2 0, bothSet 2 2, calling.outBlock atMarked, none⟩] := by
  have hin := contains_inLoops_of_headers headers_calling "A_0"
  have hto : toMarked ∈ calling.base.blocks := blocks_base_calling ▸ List.mem_cons_self
  have hat : atMarked ∈ calling.base.blocks :=
    blocks_base_calling ▸ List.mem_cons_of_mem _ List.mem_cons_self
  have hcall : calling.CallRun pre calling.implementation (calling.outBlock toMarked)
      (state 0 0) (state 1 0) [⟨state 0 0, state 1 0, calling.outBlock toMarked, some markedCall⟩,
        ⟨bothSet 2 0, bothSet 2 2, calling.outBlock atMarked, none⟩] := by
    refine .call (h.outBlock_mem hat) ?_ hat rfl rfl ?_ (commands_outBlock_of_par rfl) ?_
      (step_call_calling pre 1 2 0) (runs_afterCall_calling _ 2 0) (run_atMarked h pre)
    · rw [successors_toMarked]
      decide
    · refine h.passesChecks _ (WellFormed.refinement_mem_checkers _) ?_
        (passes_assertStep_state _ 0 passes_stop)
      rw [successors_toMarked]
      decide
    · show Runs _ (calling.beforeCall (calling.inLoops.contains "A_0") markedCall) _ _
      rw [hin]
      exact runs_beforeCall_calling _ 1 0
  have hplain : Command.Plain toMarked.commands := .cons rfl .nil
  have hn := h.not_beginsStep_of_plain hto hplain (headers_calling ▸ List.not_mem_nil)
  refine .step (h.outBlock_mem hto) (Implementation.mem_labels.mpr ⟨_, hto, rfl⟩) ?_ hn ?_ ?_ hcall
  · rw [Block.successors, h.initialBlock_transfer]
    decide
  · refine h.passesChecks _ (WellFormed.unifiedReturn_mem_checkers _) ?_ trivial
    rw [Block.successors, h.initialBlock_transfer]
    decide
  · rw [commands_toMarked]
    exact runs_increment _ 0 0

omit h in
/-- The component increments the counter from wherever it starts. -/
theorem performs_of_preparedRun {s m t : model.State}
    (hr : calling.PreparedRun pre component s m t) :
    action.Performs calling.source calling.globals m t := by
  obtain ⟨u, hu, ht⟩ := runs_append.mp hr.2
  obtain ⟨v, hv, hu⟩ := runs_append.mp hu
  obtain rfl : u = v := hu
  have hx : u x.name = m x.name := (Snapshot.runs_update hv).2 x.name (by decide)
  have ht : t = Function.update u x.name (model.binary .add (u x.name) (model.int 1)) :=
    runs_singleton.mp ht
  refine performs_of_eq ?_
  rw [ht, Function.update_self, hx]

/-- The prepared check of the component is passed. -/
theorem passesPrepared_calling : calling.PassesPrepared pre calling.implementation
    (calling.outBlock toMarked) (state 1 0) := by
  intro k hk _ hl t ht
  have hmem : calling.completed ⟨3, true, component⟩ ∈ calling.implementation.blocks := by
    refine h.mem_implementation_iff.mpr (.inr (.inr (.inr (mem_spliced_iff.mpr ⟨_, ?_, rfl⟩))))
    show calling.metComponents.find? _ = _
    rw [metComponents_calling]
    rfl
  obtain rfl := Implementation.eq_of_label_eq h.nodup_labels hk hmem (List.mem_singleton.mp hl)
  obtain ⟨m, hrun⟩ := runs_completed_iff.mp ht
  obtain ⟨htr, hpc, -⟩ := apart_calling.of_preparedRun rfl preparedApart_calling
    (List.mem_singleton_self _) hrun
  have hperform := performs_of_preparedRun pre hrun
  refine h.passesChecks _ (WellFormed.returning_mem_checkers _) ?_ ?_
  · exact fun l hl _ => (WellFormed.mem_successors_completed_iff rfl).mp hl
  · exact (Refinement.passes_returning standard_model htr).mpr
      ⟨.inr hperform, fun hp => absurd (hpc ▸ hp) (not_holds_flag 1 0 (by decide)), .inr hperform,
        fun _ _ => passes_stop⟩

end Run

end Counter

/-- The counter is incremented before the marked call: all checks are passed, and the fragment that
ends at the call performs the action, as does every run of the component. -/
theorem Sequential.marked_calls_accounted_calling : ∃ out, let q := Counter.calling
    let s := Counter.state 0 0
    let f : Stretch Counter.model :=
      ⟨s, Counter.state 1 0, q.outBlock Counter.toMarked, some Counter.markedCall⟩
    let g : Stretch Counter.model :=
      ⟨Counter.bothSet 2 0, Counter.bothSet 2 2, q.outBlock Counter.atMarked, none⟩
    q.Produces (Counter.program [Counter.beforeMarked]) out q.implementation ∧
      q.source.labels.Nodup ∧ q.setting.copies.Faithful q.source ∧ q.headers = [] ∧ q.Apart ∧
      q.PreparedApart ∧ q.PreparedPlain ∧ q.plan.action? = some Counter.action ∧
      Counter.model.Standard ∧ q.initialBlock q.others ∈ q.implementation.blocks ∧
      Runs (q.surroundings s) (q.initialBlock q.others).commands s s ∧
      q.Execution s q.implementation (q.initialBlock q.others) s ∧
      q.CallRun s q.implementation (q.initialBlock q.others) s s [f, g] ∧ f.Marked ∧
      q.PassesPrepared s q.implementation f.last f.stop ∧
      Counter.action.Performs q.source q.globals f.start f.stop ∧
      ¬ Keeps q.globals f.start f.stop ∧
      ∀ m t, q.PreparedRun s Counter.component f.stop m t →
        Counter.action.Performs q.source q.globals m t := by
  obtain ⟨out, h⟩ := Counter.exists_produces_calling
  have hn : Counter.calling.source.labels.Nodup := by decide
  have hf : Counter.calling.setting.copies.Faithful Counter.calling.source :=
    fun r hr => absurd hr List.not_mem_nil
  have hw := h.wellFormed hn hf
  have hrun := Counter.run_calling hw (Counter.state 0 0)
  have hpass := Counter.passesPrepared_calling hw (Counter.state 0 0)
  have hperform := Counter.performs_state 0 0 0
  obtain ⟨-, hacc⟩ := h.marked_calls_accounted hn hf Counter.headers_calling Counter.apart_calling
    Counter.preparedApart_calling rfl Counter.standard_model hw.initialBlock_mem rfl
    (Counter.runs_initial_calling _)
  obtain ⟨before, f, call, after, hfs, hsplit, -⟩ :=
    hacc _ hrun ⟨_, List.mem_cons_self, Counter.markedCall, rfl, rfl⟩
  refine ⟨out, h, hn, hf, Counter.headers_calling, Counter.apart_calling,
    Counter.preparedApart_calling, Counter.preparedPlain_calling, rfl, Counter.standard_model,
    hw.initialBlock_mem, Counter.runs_initial_calling _, hrun.execution, hrun,
    ⟨Counter.markedCall, rfl, rfl⟩, hpass, hperform, Counter.changes_state 0 0 0 false, ?_⟩
  cases before with
  | nil =>
    obtain ⟨rfl, rfl⟩ := List.cons.inj hfs
    obtain rfl := Option.some_inj.mp hsplit.call
    intro m t hrun
    have hmet : ∀ d ∈ Counter.calling.metComponents, d.id = 3 → d.refining = true := by
      rw [Counter.metComponents_calling]
      decide
    have hcomponent := (hsplit.components _ rfl _ List.mem_cons_self hmet _ rfl hpass m t hrun).2
    exact hcomponent.resolve_left (by simp)
  | cons e es =>
    -- The last fragment ends with the return.
    have hmem : f ∈ es ++ f :: after := List.mem_append_right es List.mem_cons_self
    rw [← List.append_eq, ← (List.cons.inj hfs).2] at hmem
    rw [List.mem_singleton.mp hmem] at hsplit
    exact absurd hsplit.call (by simp)

end LayerCheck
