import LayerCheck.Proofs.Sequential.Executions
import LayerCheck.Proofs.Sequential.Stored

/-!
# Executions with parallel calls

Where there are no yielding loops, a fragment ends at a yield, at a parallel call or where the body
returns.  A parallel call with a component that is marked as the one that performs the action has
to be the first to do anything, and all that comes after it has to leave globals and outputs alone.
Of the fragment that ends at it, the flags say nothing.

* `Sequential.CallRun`: the runs from a block on, with what they consist of.
* `Sequential.WellFormed.exists_callRun`: every execution is such a run.
* `Tallied`: what the flags say about what a run consists of.
* `Tallied.exists_split`: what stands on both sides of a marked call.
-/

namespace LayerCheck

open Interpretation Command

variable {M : Interpretation}

/-- A part of a run without interference that knows how it ends. -/
structure Stretch (M : Interpretation) where
  start : M.State
  stop : M.State
  /-- The block at whose end it stops. -/
  last : Block
  /-- The parallel call that comes next; otherwise a yield does, or the body returns. -/
  call? : Option ParCall

/-- It ends at a parallel call that is marked as the one that performs the action. -/
def Stretch.Marked (f : Stretch M) : Prop := ∃ p, f.call? = some p ∧ p.isRefining = true

theorem Stretch.not_marked_of_none {f : Stretch M} (h : f.call? = none) : ¬ f.Marked := by
  intro hm
  obtain ⟨p, hp, -⟩ := hm
  rw [h] at hp
  cases hp

/-! ## The account -/

/-- The account that two flags keep, as in `Accounted`.  At a marked call nothing may have been done
before, and afterwards everything counts as done; `Called f ok` is what is known of the call that
ends `f`. -/
inductive Tallied (Still Steady Performs : Stretch M → Prop) (Called : Stretch M → Prop → Prop) :
    Prop → Prop → List (Stretch M) → Prop
  | last {pc ok : Prop} {f : Stretch M} (hm : ¬ f.Marked) (hs : (pc ∨ Still f) ∨ Performs f)
      (hp : pc → Still f) : Tallied Still Steady Performs Called pc ok [f]
  | noted {pc ok pc' ok' : Prop} {f : Stretch M} {fs : List (Stretch M)} (hm : ¬ f.Marked)
      (hs : (pc ∨ Still f) ∨ Performs f) (hp : pc → Still f) (hpc : pc' ↔ (Steady f → pc))
      (hok : ok' ↔ ok ∨ Performs f) (h : Tallied Still Steady Performs Called pc' ok' fs) :
      Tallied Still Steady Performs Called pc ok (f :: fs)
  | marked {pc ok pc' ok' : Prop} {f : Stretch M} {fs : List (Stretch M)} (hm : f.Marked)
      (hs : (pc ∨ Still f) ∨ Performs f) (hn : ¬ pc) (hc : Called f ok) (hpc : pc')
      (h : Tallied Still Steady Performs Called pc' ok' fs) :
      Tallied Still Steady Performs Called pc ok (f :: fs)

namespace Tallied

variable {Still Steady Performs : Stretch M → Prop} {Called : Stretch M → Prop → Prop}
  {pc ok : Prop} {fs : List (Stretch M)}

/-- Once something has been done, no marked call comes and nothing changes any more. -/
theorem still_of_pc (h : Tallied Still Steady Performs Called pc ok fs) (hpc : pc) :
    ∀ f ∈ fs, ¬ f.Marked ∧ Still f := by
  induction h with
  | last hm _ hp => exact List.forall_mem_singleton.mpr ⟨hm, hp hpc⟩
  | noted hm _ hp hpc' _ _ ih =>
    exact List.forall_mem_cons.mpr ⟨⟨hm, hp hpc⟩, ih (hpc'.mpr fun _ => hpc)⟩
  | marked _ _ hn => exact absurd hpc hn

/-- **Every fragment performs the action or changes nothing**, also one that ends at a marked
call. -/
theorem still_or_performs (h : Tallied Still Steady Performs Called pc ok fs) :
    ∀ f ∈ fs, Still f ∨ Performs f := by
  induction h with
  | last _ hs hp => exact List.forall_mem_singleton.mpr (still_or_performs_of_check hs hp)
  | noted _ hs hp _ _ _ ih =>
    exact List.forall_mem_cons.mpr ⟨still_or_performs_of_check hs hp, ih⟩
  | marked _ hs hn _ _ _ ih =>
    exact List.forall_mem_cons.mpr
      ⟨still_or_performs_of_check hs fun hpc => absurd hpc hn, ih⟩

/-- **A marked call is the only one.**  Before it no fragment changes the globals, and after it none
changes anything; that it comes means that nothing had been done. -/
theorem exists_split (h : Tallied Still Steady Performs Called pc ok fs)
    (hm : ∃ f ∈ fs, f.Marked) : ¬ pc ∧ ∃ before f after, fs = before ++ f :: after ∧ f.Marked ∧
      (∀ g ∈ before, ¬ g.Marked ∧ Steady g) ∧ (∀ g ∈ after, ¬ g.Marked ∧ Still g) ∧
      Called f (ok ∨ ∃ g ∈ before, Performs g) := by
  induction h with
  | last hn =>
    obtain ⟨f, hf, hfm⟩ := hm
    exact absurd (List.mem_singleton.mp hf ▸ hfm) hn
  | @noted pc ok pc' ok' f fs hn _ _ hpc hok _ ih =>
    have hrest : ∃ g ∈ fs, g.Marked := by
      obtain ⟨g, hg, hgm⟩ := hm
      rcases List.mem_cons.mp hg with rfl | hg
      · exact absurd hgm hn
      · exact ⟨g, hg, hgm⟩
    obtain ⟨hpc', before, g, after, hfs, hgm, hbefore, hafter, hcalled⟩ := ih hrest
    -- That the flag is not set means that it was not set before and that nothing has changed.
    have hsteady : Steady f ∧ ¬ pc := Classical.not_imp.mp (mt hpc.mpr hpc')
    have hflag : (ok' ∨ ∃ e ∈ before, Performs e) = (ok ∨ ∃ e ∈ f :: before, Performs e) := by
      rw [hok, or_assoc, List.exists_mem_cons_iff]
    refine ⟨hsteady.2, f :: before, g, after, by rw [hfs, List.cons_append], hgm,
      List.forall_mem_cons.mpr ⟨⟨hn, hsteady.1⟩, hbefore⟩, hafter, hflag ▸ hcalled⟩
  | @marked pc ok pc' ok' f fs hfm _ hn hc hpc h ih =>
    refine ⟨hn, [], f, fs, rfl, hfm, fun g hg => absurd hg List.not_mem_nil, h.still_of_pc hpc, ?_⟩
    have hflag : (ok ∨ ∃ e ∈ ([] : List (Stretch M)), Performs e) = ok := by simp
    rw [hflag]
    exact hc

end Tallied

/-! ## Runs -/

namespace Sequential

variable {q : Sequential} {a : AtomicAction} {pre start s t : M.State}

/-- `CallRun pre j c start s fs`: from the end of block `c` in state `s`, in a fragment that began
in `start`, a body without yielding loops may go on until it returns, and the fragments from this
one on are `fs`. -/
inductive CallRun (q : Sequential) (pre : M.State) (j : Implementation) :
    Block → M.State → M.State → List (Stretch M) → Prop
  /-- The body returns. -/
  | ret {c : Block} {start s : M.State} (hs : Label.unifiedReturn ∈ c.successors)
      (hc : q.PassesChecks pre j c s) : CallRun q pre j c start s [⟨start, s, c, none⟩]
  /-- The fragment goes on with another block of the body. -/
  | step {c d : Block} {start s t : M.State} {fs : List (Stretch M)} (hd : d ∈ j.blocks)
      (hb : d.label ∈ q.base.labels) (hs : d.label ∈ c.successors) (hn : ¬ q.BeginsStep d.label)
      (hc : q.PassesChecks pre j c s) (hr : Command.Runs (q.surroundings pre) d.commands s t)
      (h : CallRun q pre j d start t fs) : CallRun q pre j c start s fs
  /-- The next block begins with a yield, at which other threads take `m` to `n`. -/
  | yield {b c d : Block} {start s m n t : M.State} {fs : List (Stretch M)} {id : CommandId}
      {rest after : List Command} (hd : d ∈ j.blocks) (hs : d.label ∈ c.successors)
      (hb : b ∈ q.base.blocks) (hl : b.label = d.label) (hy : b.commands = .yield id :: rest)
      (hc : q.PassesChecks pre j c s)
      (hcut : d.commands = q.beforeHavoc (q.inLoops.contains d.label) rest ++
        (q.setting.havocGlobals ++ after))
      (hm : Command.Runs (q.surroundings pre)
        (q.beforeHavoc (q.inLoops.contains d.label) rest) s m)
      (hn : Command.Runs (q.surroundings pre) q.setting.havocGlobals m n)
      (ht : Command.Runs (q.surroundings pre) after n t) (h : CallRun q pre j d n t fs) :
      CallRun q pre j c start s (⟨start, s, c, none⟩ :: fs)
  /-- The next block begins with a parallel call, which takes `m` to `n`. -/
  | call {b c d : Block} {start s m n t : M.State} {fs : List (Stretch M)} {p : ParCall}
      {rest after : List Command} (hd : d ∈ j.blocks) (hs : d.label ∈ c.successors)
      (hb : b ∈ q.base.blocks) (hl : b.label = d.label) (hy : b.commands = .par p :: rest)
      (hc : q.PassesChecks pre j c s)
      (hcut : d.commands = q.beforeCall (q.inLoops.contains d.label) p ++
        .call p.aggregatorCall :: after)
      (hm : Command.Runs (q.surroundings pre) (q.beforeCall (q.inLoops.contains d.label) p) s m)
      (hn : Command.Step (q.surroundings pre) m n (.call p.aggregatorCall))
      (ht : Command.Runs (q.surroundings pre) after n t) (h : CallRun q pre j d n t fs) :
      CallRun q pre j c start s (⟨start, s, c, some p⟩ :: fs)

/-- A run with its fragments is an execution. -/
theorem CallRun.execution {j : Implementation} {c : Block} {fs : List (Stretch M)}
    (h : q.CallRun pre j c start s fs) : q.Execution pre j c s := by
  induction h with
  | ret hs hc => exact .ret hs hc
  | step hd _ hs _ hc hr _ ih => exact .step hd hs hc hr ih
  | yield hd hs _ _ _ hc hcut hm hn ht _ ih =>
    refine .step hd hs hc ?_ ih
    rw [hcut]
    exact runs_append.mpr ⟨_, hm, runs_append.mpr ⟨_, hn, ht⟩⟩
  | call hd hs _ _ _ hc hcut hm hn ht _ ih =>
    refine .step hd hs hc ?_ ih
    rw [hcut]
    exact runs_append.mpr ⟨_, hm, _, hn, ht⟩

theorem commands_outBlock_of_par {b : Block} {p : ParCall} {rest : List Command}
    (hy : b.commands = .par p :: rest) :
    (q.outBlock b).commands = q.beforeCall (q.inLoops.contains b.label) p ++
      .call p.aggregatorCall :: q.afterCall p rest := by
  rw [← afterParCall_eq]
  show q.outCommands b = _
  rw [outCommands, hy]

/-- **Without yielding loops, every execution is cut into fragments.** -/
theorem WellFormed.exists_callRun (h : q.WellFormed) (hM : M.Standard) (hp : q.PreparedPlain)
    (hloops : q.headers = []) {c : Block} (he : q.Execution pre q.implementation c s)
    (hu : (∃ b ∈ q.base.blocks, c = q.outBlock b) ∨ c = q.initialBlock q.others)
    (start : M.State) : ∃ fs, q.CallRun pre q.implementation c start s fs := by
  induction he generalizing start with
  | ret hs hc => exact ⟨_, .ret hs hc⟩
  | @step c d s t hd hs hc hr he ih =>
    obtain ⟨b, hb, rfl⟩ := h.exists_base hM hp hu hd hs hr he
    have ih := ih (.inl ⟨b, hb, rfl⟩)
    have hlabel : (q.outBlock b).label ∈ q.base.labels :=
      Implementation.mem_labels.mpr ⟨b, hb, rfl⟩
    rcases of_mem_commands_base hb with ⟨-, hplain⟩ | ⟨-, m, rest, hbc, hm, -⟩
    · obtain ⟨fs, hfs⟩ := ih start
      have hn := h.not_beginsStep_of_plain hb hplain (hloops ▸ List.not_mem_nil)
      exact ⟨fs, .step hd hlabel hs hn hc hr hfs⟩
    · cases m with
      | yield id =>
        have hcut := commands_outBlock_of_yield (q := q) hbc
        rw [hcut, runs_append] at hr
        obtain ⟨m, hr₁, hr₂⟩ := hr
        obtain ⟨n, hr₂, hr₃⟩ := runs_append.mp hr₂
        obtain ⟨fs, hfs⟩ := ih n
        exact ⟨_, .yield hd hs hb rfl hbc hc hcut hr₁ hr₂ hr₃ hfs⟩
      | par p =>
        have hcut := commands_outBlock_of_par (q := q) hbc
        rw [hcut, runs_append] at hr
        obtain ⟨m, hr₁, n, hr₂, hr₃⟩ := hr
        obtain ⟨fs, hfs⟩ := ih n
        exact ⟨_, .call hd hs hb rfl hbc hc hcut hr₁ hr₂ hr₃ hfs⟩
      | _ => simp [Command.isPreemption] at hm

end Sequential

end LayerCheck
