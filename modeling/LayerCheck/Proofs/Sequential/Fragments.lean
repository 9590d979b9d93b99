import LayerCheck.Proofs.Refinement
import LayerCheck.Proofs.Sequential.Checks

/-!
# Runs of the sequential body and their steps

A run goes from block to block until the body returns.  It is cut into fragments where other threads
may run, and where a yielding loop is entered or begins another round.  At every block of a run the
checks of refinement that the block jumps to are passed.

* `Sequential.Execution`: the runs from a block on.
* `Sequential.Run`: these runs with their fragments.
* `Accounted`: what the flags say about the fragments of a run.
* `Accounted.pairwise`: of two fragments that change something, the first enters a loop.
-/

namespace LayerCheck

open Interpretation

variable {M : Interpretation}

/-- A part of a run without interference: the states in which it begins and ends. -/
structure Fragment (M : Interpretation) where
  start : M.State
  stop : M.State
  /-- It ends with a jump to the head of a yielding loop, from a block outside of such loops. -/
  entering : Bool

namespace Fragment

def Changes (vars : List Variable) (f : Fragment M) : Prop := ¬ Keeps vars f.start f.stop

end Fragment

/-! ## The account -/

/-- Two flags keep account of fragments: `pc` that one has changed something, `ok` that one has
performed the action. `Still` fragments change nothing at all, `Steady` ones no globals. At the
entry of a loop the flags stay as they are. -/
inductive Accounted (Still Steady Performs : Fragment M → Prop) :
    Prop → Prop → List (Fragment M) → Prop
  | last {pc ok : Prop} {f : Fragment M} (he : f.entering = false)
      (hs : (pc ∨ Still f) ∨ Performs f) (hp : pc → Still f) (ho : ok ∨ Performs f) :
      Accounted Still Steady Performs pc ok [f]
  | still {pc ok : Prop} {f : Fragment M} {fs : List (Fragment M)} (hs : Still f)
      (h : Accounted Still Steady Performs pc ok fs) :
      Accounted Still Steady Performs pc ok (f :: fs)
  | noted {pc ok pc' ok' : Prop} {f : Fragment M} {fs : List (Fragment M)}
      (he : f.entering = false) (hs : (pc ∨ Still f) ∨ Performs f) (hp : pc → Still f)
      (hpc : pc' ↔ (Steady f → pc)) (hok : ok' ↔ ok ∨ Performs f)
      (h : Accounted Still Steady Performs pc' ok' fs) :
      Accounted Still Steady Performs pc ok (f :: fs)
  | entered {pc ok : Prop} {f : Fragment M} {fs : List (Fragment M)} (he : f.entering = true)
      (hs : (pc ∨ Still f) ∨ Performs f) (hp : pc → Still f)
      (h : Accounted Still Steady Performs pc ok fs) :
      Accounted Still Steady Performs pc ok (f :: fs)

/-- What the check of a step says, whatever has been done before. -/
theorem still_or_performs_of_check {pc still performs : Prop} (hs : (pc ∨ still) ∨ performs)
    (hp : pc → still) : still ∨ performs :=
  hs.imp_left fun hs => hs.elim hp id

namespace Accounted

variable {Still Steady Performs : Fragment M → Prop} {pc ok : Prop} {fs : List (Fragment M)}

/-- Once something has been changed, nothing changes any more. -/
theorem still_of_pc (h : Accounted Still Steady Performs pc ok fs) (hpc : pc) :
    ∀ f ∈ fs, Still f := by
  induction h with
  | last _ _ hp _ => exact List.forall_mem_singleton.mpr (hp hpc)
  | still hs _ ih => exact List.forall_mem_cons.mpr ⟨hs, ih hpc⟩
  | noted _ _ hp hpc' _ _ ih =>
    exact List.forall_mem_cons.mpr ⟨hp hpc, ih (hpc'.mpr fun _ => hpc)⟩
  | entered _ _ hp _ ih => exact List.forall_mem_cons.mpr ⟨hp hpc, ih hpc⟩

/-- **Every fragment performs the action or changes nothing.** -/
theorem still_or_performs (h : Accounted Still Steady Performs pc ok fs) :
    ∀ f ∈ fs, Still f ∨ Performs f := by
  induction h with
  | last _ hs hp _ => exact List.forall_mem_singleton.mpr (still_or_performs_of_check hs hp)
  | still hs _ ih => exact List.forall_mem_cons.mpr ⟨.inl hs, ih⟩
  | noted _ hs hp _ _ _ ih =>
    exact List.forall_mem_cons.mpr ⟨still_or_performs_of_check hs hp, ih⟩
  | entered _ hs hp _ ih =>
    exact List.forall_mem_cons.mpr ⟨still_or_performs_of_check hs hp, ih⟩

/-- **Some fragment that does not enter a loop performs the action.** -/
theorem exists_performs (h : Accounted Still Steady Performs pc ok fs) (hok : ¬ ok) :
    ∃ f ∈ fs, f.entering = false ∧ Performs f := by
  induction h with
  | last he _ _ ho => exact ⟨_, List.mem_singleton_self _, he, ho.resolve_left hok⟩
  | still _ _ ih =>
    obtain ⟨f, hf, h⟩ := ih hok
    exact ⟨f, List.mem_cons_of_mem _ hf, h⟩
  | @noted pc ok pc' ok' f fs he _ _ _ hok' _ ih =>
    by_cases hf : Performs f
    · exact ⟨f, List.mem_cons_self, he, hf⟩
    · obtain ⟨g, hg, h⟩ := ih fun h => (hok'.mp h).elim hok hf
      exact ⟨g, List.mem_cons_of_mem _ hg, h⟩
  | entered _ _ _ _ ih =>
    obtain ⟨f, hf, h⟩ := ih hok
    exact ⟨f, List.mem_cons_of_mem _ hf, h⟩

/-- **Of two fragments that change the globals, the first enters a loop.** -/
theorem pairwise (h : Accounted Still Steady Performs pc ok fs)
    (hsteady : ∀ f, Still f → Steady f) :
    fs.Pairwise fun f g => ¬ Steady f → ¬ Steady g → f.entering = true := by
  induction h with
  | last => exact List.pairwise_singleton _ _
  | still hs _ ih =>
    exact List.pairwise_cons.mpr ⟨fun g _ hf => absurd (hsteady _ hs) hf, ih⟩
  | noted _ _ _ hpc _ h ih =>
    refine List.pairwise_cons.mpr ⟨fun g hg hf hng => ?_, ih⟩
    have hpc' := hpc.mpr fun hs => absurd hs hf
    exact absurd (hsteady g (h.still_of_pc hpc' g hg)) hng
  | entered he _ _ _ ih => exact List.pairwise_cons.mpr ⟨fun _ _ _ _ => he, ih⟩

end Accounted

/-! ## Runs -/

namespace Sequential

variable {q : Sequential}

/-- Calls may change the globals of the layer. -/
def surroundings (q : Sequential) (pre : M.State) : Surroundings M :=
  { pre, globals := q.globals.map Variable.name }

/-- What a yield does before other threads run. -/
def beforeHavoc (q : Sequential) (inLoop : Bool) (rest : List Command) : List Command :=
  (if inLoop then [] else q.refinement.endStep) ++ Command.leadingPredicates rest

/-- What a yield does after other threads have run, up to the end of its block. -/
def afterHavoc (q : Sequential) (id : CommandId) (rest : List Command) : List Command :=
  q.refinement.assumeGate ++ q.setting.permissions.assumeDisjoint (.command id) q.scope q.globals ++
    q.beginStep (.command id) ++
    (((Command.leadingPredicates rest).filterMap Command.predicate?).map .assume ++
      rest.drop (Command.leadingPredicates rest).length)

theorem afterYield_eq (q : Sequential) (inLoop : Bool) (id : CommandId) (rest : List Command) :
    q.afterYield inLoop id rest =
      q.beforeHavoc inLoop rest ++ (q.setting.havocGlobals ++ q.afterHavoc id rest) := by
  simp only [afterYield, beforeHavoc, afterHavoc, List.append_assoc]

/-- All assertions hold in the checks of refinement that the block jumps to. -/
def PassesChecks (q : Sequential) (pre : M.State) (j : Implementation) (c : Block) (s : M.State) :
    Prop :=
  ∀ k ∈ j.blocks, k.label ∈ c.successors →
    k.label ∈ [Label.refinement, Label.loopRefinement, Label.returning] →
      Command.Passes (q.surroundings pre) k.commands s

/-- From the end of block `c` in state `s`, the body may go on until it returns. -/
inductive Execution (q : Sequential) (pre : M.State) (j : Implementation) :
    Block → M.State → Prop
  | ret {c : Block} {s : M.State} (hs : Label.unifiedReturn ∈ c.successors)
      (hc : q.PassesChecks pre j c s) : Execution q pre j c s
  | step {c d : Block} {s t : M.State} (hd : d ∈ j.blocks) (hs : d.label ∈ c.successors)
      (hc : q.PassesChecks pre j c s) (hr : Command.Runs (q.surroundings pre) d.commands s t)
      (h : Execution q pre j d t) : Execution q pre j c s

/-- `Run pre j c start s fs`: from the end of block `c` in state `s`, in a fragment that began in
`start`, the body may go on until it returns, and the fragments from this one on are `fs`. -/
inductive Run (q : Sequential) (pre : M.State) (j : Implementation) :
    Block → M.State → M.State → List (Fragment M) → Prop
  /-- The body returns. -/
  | ret {c : Block} {start s : M.State} (hs : Label.unifiedReturn ∈ c.successors)
      (hc : q.PassesChecks pre j c s) : Run q pre j c start s [⟨start, s, false⟩]
  /-- The fragment goes on with another block of the body. -/
  | step {c d : Block} {start s t : M.State} {fs : List (Fragment M)} (hd : d ∈ j.blocks)
      (hb : d.label ∈ q.base.labels) (hs : d.label ∈ c.successors) (hn : ¬ q.BeginsStep d.label)
      (hc : q.PassesChecks pre j c s) (hr : Command.Runs (q.surroundings pre) d.commands s t)
      (h : Run q pre j d start t fs) : Run q pre j c start s fs
  /-- The next block is the head of a yielding loop. -/
  | loop {c d : Block} {start s t : M.State} {fs : List (Fragment M)} (hd : d ∈ j.blocks)
      (hs : d.label ∈ c.successors) (hh : d.label ∈ q.headers) (hc : q.PassesChecks pre j c s)
      (hr : Command.Runs (q.surroundings pre) d.commands s t) (h : Run q pre j d s t fs) :
      Run q pre j c start s (⟨start, s, !q.inLoops.contains c.label⟩ :: fs)
  /-- The next block begins with a yield, at which other threads take `m` to `n`. -/
  | yield {b c d : Block} {start s m n t : M.State} {fs : List (Fragment M)} {id : CommandId}
      {rest after : List Command} (hd : d ∈ j.blocks) (hs : d.label ∈ c.successors)
      (hb : b ∈ q.base.blocks) (hl : b.label = d.label) (hy : b.commands = .yield id :: rest)
      (hc : q.PassesChecks pre j c s)
      (hcut : d.commands = q.beforeHavoc (q.inLoops.contains d.label) rest ++
        (q.setting.havocGlobals ++ after))
      (hm : Command.Runs (q.surroundings pre)
        (q.beforeHavoc (q.inLoops.contains d.label) rest) s m)
      (hn : Command.Runs (q.surroundings pre) q.setting.havocGlobals m n)
      (ht : Command.Runs (q.surroundings pre) after n t) (h : Run q pre j d n t fs) :
      Run q pre j c start s (⟨start, s, false⟩ :: fs)

/-- A run with its fragments is an execution. -/
theorem Run.execution {pre : M.State} {j : Implementation} {c : Block} {start s : M.State}
    {fs : List (Fragment M)} (h : q.Run pre j c start s fs) : q.Execution pre j c s := by
  induction h with
  | ret hs hc => exact .ret hs hc
  | step hd _ hs _ hc hr _ ih => exact .step hd hs hc hr ih
  | loop hd hs _ hc hr _ ih => exact .step hd hs hc hr ih
  | yield hd hs _ _ _ hc hcut hm hn ht _ ih =>
    refine .step hd hs hc ?_ ih
    rw [hcut]
    exact Command.runs_append.mpr ⟨_, hm, Command.runs_append.mpr ⟨_, hn, ht⟩⟩

end Sequential

end LayerCheck
