import LayerCheck.Proofs.Sequential.Account
import LayerCheck.Proofs.Sequential.Shape
import Mathlib

/-!
# What executions do to the abstract state

An execution that passes its checks of refinement is cut into fragments.  Every fragment performs
the action or changes nothing, and some fragment performs it.  A fragment that ends where a yielding
loop is entered from outside may change the globals, and then another one may do so again.

* `Sequential.WellFormed.exists_run`: every execution is cut into fragments.
* `Sequential.Produces.executions_accounted`: the fragments of an accepted copy.
-/

namespace LayerCheck

open Interpretation Command

namespace Sequential

variable {M : Interpretation} {q : Sequential} {a : AtomicAction} {pre start s t : M.State}

theorem preparedPlain_of_parCalls (h : q.source.parCalls = []) : q.PreparedPlain := by
  intro r hr
  rw [Setting.preparedBlocks, h] at hr
  exact absurd hr List.not_mem_nil

namespace WellFormed

variable (h : q.WellFormed)

include h in
/-- The checks are not left. -/
theorem not_runs_checker (hM : M.Standard) {k : Block} (hk : k ∈ q.implementation.blocks)
    (hl : k.label ∈ Label.checkers) : ¬ Runs (q.surroundings pre) k.commands s t := by
  obtain ⟨cs, hcs⟩ := exists_sink_mem_checkers q hl
  rw [Implementation.eq_of_label_eq h.nodup_labels hk (h.checkers_mem hcs) rfl]
  intro hr
  obtain ⟨m, -, hm⟩ := runs_append.mp hr
  exact hM.consistent (runs_singleton.mp hm).1

include h in
/-- An execution goes on with blocks of the base only. -/
theorem exists_base (hM : M.Standard) (hp : q.PreparedPlain) {c d : Block}
    (hu : (∃ b ∈ q.base.blocks, c = q.outBlock b) ∨ c = q.initialBlock q.others)
    (hd : d ∈ q.implementation.blocks) (hs : d.label ∈ c.successors)
    (hr : Runs (q.surroundings pre) d.commands s t)
    (he : q.Execution pre q.implementation d t) : ∃ b ∈ q.base.blocks, d = q.outBlock b := by
  rcases h.mem_implementation_iff.mp hd with rfl | ⟨b, hb, rfl⟩ | hk | hk
  · have hinit : Label.initial ∈ c.successors := hs
    rcases hu with ⟨b, hb, rfl⟩ | rfl
    · exact absurd hinit (h.initial_notMem_outBlock hb)
    · exact absurd (by decide) (h.unreserved _ (h.mem_source_labels_of_initial hinit))
  · exact ⟨b, hb, rfl⟩
  · have hret := transfer_of_mem_checkers hk
    cases he with
    | ret hs => exact absurd (show _ ∈ d.transfer.targets from hs) (by rw [hret]; decide)
    | step _ hs =>
      exact absurd (show _ ∈ d.transfer.targets from hs) (by rw [hret]; exact List.not_mem_nil)
  · obtain ⟨k, hfirst, rfl⟩ := mem_spliced_iff.mp hk
    have hsucc := (hp _ (h.block_mem_preparedBlocks (List.mem_of_find?_eq_some hfirst))).2
    -- A prepared check leads to a check of steps, which is not left.
    have hchecker : (if k.refining then Label.returning else Label.loopRefinement) ∈
        Label.checkers := by split <;> decide
    cases he with
    | ret hs =>
      rw [← (mem_successors_completed_iff hsucc).mp hs] at hchecker
      exact absurd hchecker (by decide)
    | step hd hs _ hr =>
      rw [← (mem_successors_completed_iff hsucc).mp hs] at hchecker
      exact absurd hr (h.not_runs_checker hM hd hchecker)

include h in
/-- A step begins only where a loop is entered or something stands that lets other threads run. -/
theorem not_beginsStep_of_plain {b : Block} (hb : b ∈ q.base.blocks)
    (hp : Command.Plain b.commands) (hh : b.label ∉ q.headers) : ¬ q.BeginsStep b.label := by
  intro hx
  rcases hx with hn | ⟨b', hb', hl, m, rest, hbc, hm⟩
  · exact hh hn
  · rw [Implementation.eq_of_label_eq h.nodup_base hb' hb hl] at hbc
    rw [hp m (hbc ▸ List.mem_cons_self)] at hm
    cases hm

include h in
/-- All checks that the block jumps to are passed if only one is among them and it is. -/
theorem passesChecks {c : Block} (k : Block) (hk : k ∈ q.checkers)
    (hall : ∀ l ∈ c.successors, l ∈ [Label.refinement, Label.loopRefinement, Label.returning] →
      l = k.label) (hp : Passes (q.surroundings pre) k.commands s) :
    q.PassesChecks pre q.implementation c s := by
  intro k' hk' hs hl
  rw [Implementation.eq_of_label_eq h.nodup_labels hk' (h.checkers_mem hk) (hall _ hs hl)]
  exact hp

include h in
/-- **Without parallel calls, every execution is cut into fragments.** -/
theorem exists_run (hM : M.Standard) (hpar : q.source.parCalls = []) {c : Block}
    (he : q.Execution pre q.implementation c s)
    (hu : (∃ b ∈ q.base.blocks, c = q.outBlock b) ∨ c = q.initialBlock q.others)
    (start : M.State) : ∃ fs, q.Run pre q.implementation c start s fs := by
  induction he generalizing start with
  | ret hs hc => exact ⟨_, .ret hs hc⟩
  | @step c d s t hd hs hc hr he ih =>
    obtain ⟨b, hb, rfl⟩ := h.exists_base hM (preparedPlain_of_parCalls hpar) hu hd hs hr he
    have ih := ih (.inl ⟨b, hb, rfl⟩)
    have hlabel : (q.outBlock b).label ∈ q.base.labels :=
      Implementation.mem_labels.mpr ⟨b, hb, rfl⟩
    by_cases hh : b.label ∈ q.headers
    · obtain ⟨fs, hfs⟩ := ih s
      exact ⟨_, .loop hd hs hh hc hr hfs⟩
    rcases of_mem_commands_base hb with ⟨-, hp⟩ | ⟨-, m, rest, hbc, hm, -⟩
    · obtain ⟨fs, hfs⟩ := ih start
      have hn := h.not_beginsStep_of_plain hb hp hh
      exact ⟨fs, .step hd hlabel hs hn hc hr hfs⟩
    · cases m with
      | yield id =>
        have hcut := commands_outBlock_of_yield (q := q) hbc
        rw [hcut, runs_append] at hr
        obtain ⟨m, hr₁, hr₂⟩ := hr
        obtain ⟨n, hr₂, hr₃⟩ := runs_append.mp hr₂
        obtain ⟨fs, hfs⟩ := ih n
        exact ⟨_, .yield hd hs hb rfl hbc hc hcut hr₁ hr₂ hr₃ hfs⟩
      | par p =>
        obtain ⟨b', hb', -, hpb⟩ := h.mem_source_of_mem_base hb (c := .par p)
          (hbc ▸ List.mem_cons_self) rfl
        have hmem : p ∈ q.source.parCalls := by
          rw [Implementation.parCalls_eq, List.mem_filterMap]
          exact ⟨.par p, List.mem_flatMap.mpr ⟨b', hb', hpb⟩, rfl⟩
        rw [hpar] at hmem
        exact absurd hmem List.not_mem_nil
      | _ => simp [Command.isPreemption] at hm

end WellFormed

/-- **An execution that passes its checks accounts for its fragments.**  Each performs the action or
changes neither globals nor outputs, and one that does not enter a yielding loop performs it.  At
most one fragment changes the globals if and only if none does so after one that changes them and
ends where a yielding loop is entered from outside. -/
theorem Produces.executions_accounted {p : Program} {out : Program × LayerOutput}
    {j : Implementation} (h : q.Produces p out j) (hn : q.source.labels.Nodup)
    (hf : q.setting.copies.Faithful q.source) (hpar : q.source.parCalls = []) (hx : q.Apart)
    (ha : q.plan.action? = some a) (hM : M.Standard) {first : Block} (hj : first ∈ j.blocks)
    (hl : first.label = Label.initial)
    (hi : Runs (q.surroundings pre) first.commands start s) (he : q.Execution pre j first s) :
    (∃ fs, q.Run pre j first s s fs) ∧ ∀ fs, q.Run pre j first s s fs →
      (∀ f ∈ fs, Keeps (q.globals ++ q.source.outputs) f.start f.stop ∨
        a.Performs q.source q.globals f.start f.stop) ∧
      (∃ f ∈ fs, f.entering = false ∧ a.Performs q.source q.globals f.start f.stop) ∧
      (fs.Pairwise (fun f g => ¬ (f.Changes q.globals ∧ g.Changes q.globals)) ↔
        fs.Pairwise fun f g => f.entering = true → f.Changes q.globals →
          ¬ g.Changes q.globals) := by
  have hw := h.wellFormed hn hf
  rw [h.eq_implementation] at hj he ⊢
  have hfirst : first = q.initialBlock q.others :=
    Implementation.eq_of_label_eq hw.nodup_labels hj hw.initialBlock_mem hl
  rw [hfirst] at hi he ⊢
  refine ⟨hw.exists_run hM hpar he (.inr rfl) s, fun fs hr => ?_⟩
  obtain ⟨htr, -, hok⟩ := hx.runs_initialBlock ha hM hi
  have hacc := hx.accounted hw ha hM hr (.inr ⟨rfl, rfl⟩) htr
  refine ⟨hacc.still_or_performs, hacc.exists_performs hok, ?_⟩
  have hsteady := hacc.pairwise fun f hs v hv => hs v (List.mem_append_left _ hv)
  constructor
  · exact fun hp => hp.imp fun hfg _ hfc hgc => hfg ⟨hfc, hgc⟩
  · exact fun hp => hp.imp₂ (fun f g hfg hen hc => hfg (hen hc.1 hc.2) hc.1 hc.2) hsteady

end Sequential

/-! ## A change before a loop

The counter is incremented once before its loop and once behind it.  At the head of the loop a
fragment ends without an account, so both fragments pass their checks. -/

namespace Counter

open LayerCheck.Sequential

def before : Block := { label := "A", commands := [increment], transfer := .goto ["H"] }

def head : Block := { label := "H", transfer := .goto ["B", "E"] }

def behind : Block := { label := "E", commands := [increment] }

/-- The counter is incremented before the loop and once more behind it. -/
def twice : List Block :=
  [before, head, { label := "B", commands := [.yield 1], transfer := .goto ["H"] }, behind]

theorem exists_produces_twice : ∃ out,
    (sequential twice).Produces (program twice) out (sequential twice).implementation := by
  refine exists_produces rfl (Setting.checkConcurrent_of_reducible ?_ rfl)
  cbv

theorem blocks_base_twice : (sequential twice).base.blocks =
    [before, head, { label := "B", transfer := .goto ["B_0"] }, behind,
      { label := "B_0", commands := [.yield 1], transfer := .goto ["H"] }] := by
  unfold Sequential.base
  cbv

theorem headers_twice : (sequential twice).headers = ["H"] := by
  rw [Sequential.headers, Implementation.labels, blocks_base_twice]
  rfl

theorem inLoops_twice : (sequential twice).inLoops = ["H", "B_0", "B"] := by
  rw [Sequential.inLoops, headers_twice, Implementation.flow, blocks_base_twice]
  cbv

theorem apart_twice : (sequential twice).Apart where
  names := by decide
  body := by decide

/-- The counter and its copy; no flag is set. -/
noncomputable def state (m n : Int) : model.State := fun y =>
  if y = x.name then model.int m
  else if y = (Snapshot.shadow x).name then model.int n
  else model.bool false

theorem update_state_x (m n k : Int) :
    Function.update (state m n) x.name (model.int k) = state k n := by
  funext y
  by_cases hy : y = x.name
  · rw [hy, Function.update_self]
    rfl
  · rw [Function.update_of_ne hy, state, state, if_neg hy, if_neg hy]

theorem update_state_shadow (m n k : Int) :
    Function.update (state m n) (Snapshot.shadow x).name (model.int k) = state m k := by
  funext y
  by_cases hy : y = (Snapshot.shadow x).name
  · rw [hy, Function.update_self]
    rfl
  · rw [Function.update_of_ne hy, state, state, if_neg hy, if_neg hy]

theorem runs_increment (σ : Surroundings model) (m n : Int) :
    Runs σ [increment] (state m n) (state (m + 1) n) := by
  rw [increment, runs_singleton, Step, List.map_cons, List.map_nil, setAll, setAll_nil]
  exact (update_state_x m n (m + 1)).symm

theorem commands_before : ((sequential twice).outBlock before).commands = [increment] := by
  show (if "A" ∈ (sequential twice).headers then _ else _) = _
  rw [headers_twice]
  rfl

theorem successors_before : ((sequential twice).outBlock before).successors =
    ["H", Label.noninterference, Label.refinement] := by
  rw [Block.successors, outBlock, outTransfer, added, headerChecks, heads, headers_twice,
    inLoops_twice, blocks_base_twice]
  decide

theorem commands_head : ((sequential twice).outBlock head).commands =
    .assume (.or ActionRefinement.pc.expr (.bool true)) ::
      (sequential twice).touchGlobals ++ Snapshot.update [x] := by
  show (if "H" ∈ (sequential twice).headers then _ else _) = _
  rw [headers_twice]
  rfl

theorem successors_head : ((sequential twice).outBlock head).successors =
    ["B", "E"] := by
  rw [Block.successors, outBlock, outTransfer, added, headerChecks, heads, headers_twice,
    inLoops_twice, blocks_base_twice]
  decide

theorem commands_behind : ((sequential twice).outBlock behind).commands = [increment] := by
  show (if "E" ∈ (sequential twice).headers then _ else _) = _
  rw [headers_twice]
  rfl

theorem successors_behind : ((sequential twice).outBlock behind).successors =
    [Label.returning, Label.unifiedReturn, Label.noninterference] := rfl

theorem tracks_state (m n : Int) (k : Int) :
    ((sequential twice).refining action).Tracks (state n k) (state m n) where
  globals g hg := by
    rw [List.mem_singleton.mp hg]
    rfl
  outputs o ho := absurd ho List.not_mem_nil

/-- To add one is what the action does. -/
theorem performs_state (m k l : Int) :
    action.Performs (copy twice) [x] (state m k) (state (m + 1) l) :=
  truth_eq.mpr rfl

theorem changes_state (m k l : Int) (b : Bool) :
    (⟨state m k, state (m + 1) l, b⟩ : Fragment model).Changes [x] := by
  intro h
  have he : m + 1 = m := Sum.inr.inj (h x List.mem_cons_self)
  omega

theorem not_holds_flag (m k : Int) {v : Variable}
    (hv : v.name ≠ x.name ∧ v.name ≠ (Snapshot.shadow x).name) :
    ¬ model.Holds (state m k v.name) := by
  rw [state, if_neg hv.1, if_neg hv.2]
  exact standard_model.consistent

theorem passes_stop {σ : Surroundings model} {s : model.State} : Passes σ [Command.stop] s :=
  ⟨fun _ _ h => (by cases h), fun _ _ => trivial⟩

/-- The check of a fragment that adds one. -/
theorem passes_assertStep_state (σ : Surroundings model) (m : Int) {cs : List Command}
    (h : Passes σ cs (state (m + 1) m)) :
    Passes σ ((sequential twice).refinement.assertStep ++ cs) (state (m + 1) m) :=
  (Refinement.passes_assertStep standard_model (tracks_state (m + 1) m m)).mpr
    ⟨.inr (performs_state m m m), fun hp => absurd hp (not_holds_flag _ _ (by decide)), h⟩

theorem passes_returning (σ : Surroundings model) (m : Int) :
    Passes σ ((sequential twice).refinement.assertStep ++ (sequential twice).refinement.endStep ++
      (sequential twice).refinement.assertReturn ++ [Command.stop]) (state (m + 1) m) := by
  have hperform := performs_state m m m
  exact (Refinement.passes_returning standard_model (tracks_state (m + 1) m m)).mpr
    ⟨.inr hperform, fun hp => absurd hp (not_holds_flag _ _ (by decide)), .inr hperform,
      fun _ _ => passes_stop⟩

theorem runs_head (σ : Surroundings model) :
    Runs σ ((sequential twice).outBlock head).commands (state 1 0) (state 1 1) := by
  rw [commands_head]
  refine ⟨state 1 0, ⟨standard_model.or.mpr (.inr rfl), rfl⟩, ?_⟩
  refine runs_append.mpr ⟨state 1 0, ?_, ?_⟩
  · exact runs_assignAll.mpr (update_state_x 1 0 1).symm
  · exact runs_assignAll.mpr (update_state_shadow 1 0 1).symm

theorem runs_initial (σ : Surroundings model) :
    Runs σ ((sequential twice).initialBlock (sequential twice).others).commands (state 0 0)
      (state 0 0) := by
  have hflags : state 0 0 = setAll (state 0 0)
      [ActionRefinement.pc.name, ActionRefinement.ok.name]
      [model.bool false, model.bool false] :=
    (setAll_self (state 0 0) [ActionRefinement.pc.name, ActionRefinement.ok.name]).symm
  refine ⟨state 0 0, fun _ _ => rfl, state 0 0, ?_, state 0 0, hflags, rfl⟩
  exact (update_state_shadow 0 0 0).symm

theorem mem_base_twice : ∀ b ∈ [before, head, behind], b ∈ (sequential twice).base.blocks := by
  intro b hb
  rw [blocks_base_twice]
  revert hb
  simp only [List.mem_cons]
  tauto

theorem label_mem_base (b : Block) (hb : b ∈ [before, head, behind]) :
    b.label ∈ (sequential twice).base.labels :=
  Implementation.mem_labels.mpr ⟨b, mem_base_twice b hb, rfl⟩

theorem not_beginsStep (h : (sequential twice).WellFormed) {b : Block}
    (hb : b ∈ [before, behind]) : ¬ (sequential twice).BeginsStep b.label := by
  have hplain : b.label ≠ "H" ∧ b.commands = [increment] ∧ b ∈ [before, head, behind] := by
    rcases List.mem_cons.mp hb with rfl | hb
    · exact ⟨by decide, rfl, List.mem_cons_self⟩
    · rw [List.mem_singleton.mp hb]
      exact ⟨by decide, rfl, List.mem_cons_of_mem _ (List.mem_cons_of_mem _ List.mem_cons_self)⟩
  refine h.not_beginsStep_of_plain (mem_base_twice b hplain.2.2) ?_ ?_
  · rw [hplain.2.1]
    exact .cons rfl .nil
  · rw [headers_twice, List.mem_singleton]
    exact hplain.1

section Run

variable (h : (sequential twice).WellFormed) (pre : model.State)

include h

/-- The loop is left and the counter incremented once more. -/
theorem run_head : (sequential twice).Run pre (sequential twice).implementation
    ((sequential twice).outBlock head) (state 1 0) (state 1 1)
    [⟨state 1 0, state 2 1, false⟩] := by
  have hbehind : (sequential twice).Run pre (sequential twice).implementation
      ((sequential twice).outBlock behind) (state 1 0) (state 2 1)
      [⟨state 1 0, state 2 1, false⟩] := by
    refine .ret ?_ (h.passesChecks _ (WellFormed.returning_mem_checkers _) ?_
      (passes_returning _ 1))
    · rw [successors_behind]
      decide
    · rw [successors_behind]
      decide
  have hmem := h.outBlock_mem (mem_base_twice behind (by simp))
  refine .step hmem (label_mem_base behind (by simp)) ?_
    (not_beginsStep h (b := behind) (by simp)) ?_ ?_ hbehind
  · rw [successors_head]
    decide
  · refine h.passesChecks _ (WellFormed.unifiedReturn_mem_checkers _) ?_ trivial
    rw [successors_head]
    decide
  · rw [commands_behind]
    exact runs_increment _ 1 1

/-- **The counter is incremented in two fragments**, and all checks are passed. -/
theorem run_twice : (sequential twice).Run pre (sequential twice).implementation
    ((sequential twice).initialBlock (sequential twice).others) (state 0 0) (state 0 0)
    [⟨state 0 0, state 1 0, true⟩, ⟨state 1 0, state 2 1, false⟩] := by
  have hbefore : (sequential twice).Run pre (sequential twice).implementation
      ((sequential twice).outBlock before) (state 0 0) (state 1 0)
      [⟨state 0 0, state 1 0, !(sequential twice).inLoops.contains "A"⟩,
        ⟨state 1 0, state 2 1, false⟩] := by
    refine .loop (h.outBlock_mem (mem_base_twice head (by simp))) ?_ ?_ ?_ (runs_head _)
      (run_head h pre)
    · rw [successors_before]
      decide
    · rw [headers_twice]
      decide
    · refine h.passesChecks _ (WellFormed.refinement_mem_checkers _) ?_
        (passes_assertStep_state _ 0 passes_stop)
      rw [successors_before]
      decide
  rw [inLoops_twice] at hbefore
  have hmem := h.outBlock_mem (mem_base_twice before (by simp))
  refine .step hmem (label_mem_base before (by simp)) ?_
    (not_beginsStep h (b := before) (by simp)) ?_ ?_ hbefore
  · rw [Block.successors, h.initialBlock_transfer]
    decide
  · refine h.passesChecks _ (WellFormed.unifiedReturn_mem_checkers _) ?_ trivial
    rw [Block.successors, h.initialBlock_transfer]
    decide
  · rw [commands_before]
    exact runs_increment _ 0 0

end Run

end Counter

namespace Sequential

/-- The counter is incremented before its loop, which is then entered from outside, and again behind
it. -/
theorem executions_accounted_twice : ∃ out, let q := Counter.sequential Counter.twice
    let s := Counter.state 0 0
    let fs : List (Fragment Counter.model) := [⟨s, Counter.state 1 0, true⟩,
      ⟨Counter.state 1 0, Counter.state 2 1, false⟩]
    q.Produces (Counter.program Counter.twice) out q.implementation ∧
      q.source.labels.Nodup ∧ q.setting.copies.Faithful q.source ∧ q.source.parCalls = [] ∧
      q.Apart ∧ q.plan.action? = some Counter.action ∧ Counter.model.Standard ∧
      q.initialBlock q.others ∈ q.implementation.blocks ∧
      Runs (q.surroundings s) (q.initialBlock q.others).commands s s ∧
      q.Execution s q.implementation (q.initialBlock q.others) s ∧
      q.Run s q.implementation (q.initialBlock q.others) s s fs ∧
      (∀ f ∈ fs, f.Changes q.globals) ∧
      ∃ f ∈ fs, f.entering = false ∧
        Counter.action.Performs q.source q.globals f.start f.stop := by
  obtain ⟨out, h⟩ := Counter.exists_produces_twice
  have hn : (Counter.copy Counter.twice).labels.Nodup := by decide
  have hf : Counter.setting.copies.Faithful (Counter.copy Counter.twice) := by
    intro r hr _
    rw [List.mem_singleton.mp hr]
    decide
  have hw := h.wellFormed hn hf
  have hj := hw.initialBlock_mem
  have hrun := Counter.run_twice hw (Counter.state 0 0)
  have hacc := (h.executions_accounted hn hf rfl Counter.apart_twice rfl Counter.standard_model hj
    rfl (Counter.runs_initial _) hrun.execution).2 _ hrun
  refine ⟨out, h, hn, hf, rfl, Counter.apart_twice, rfl, Counter.standard_model, hj,
    Counter.runs_initial _, hrun.execution, hrun, ?_, hacc.2.1⟩
  intro f hfs
  rcases List.mem_cons.mp hfs with rfl | hfs
  · exact Counter.changes_state 0 0 0 true
  · rw [List.mem_singleton.mp hfs]
    exact Counter.changes_state 1 0 1 false

end Sequential

end LayerCheck
