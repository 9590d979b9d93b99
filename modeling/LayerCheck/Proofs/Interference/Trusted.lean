import LayerCheck.Proofs.Frame
import LayerCheck.Proofs.Sequential.Repeated

/-!
# Trusting interference

If interference is trusted, nothing is emitted for it.  Two runs of a layer, one that checks
interference and one that trusts it, go through the same passes side by side: they plan the same,
open the same loops and branch off to the same checks.  What the one that checks has beside the other
is the collecting of permissions where steps begin, and the call of the dispatcher.

* `Sequential.trusting`: the other run.
* `Sequential.Accepted.exists_opened`: the blocks of both runs once loops are opened.
* `Sequential.Collects`: a block of both runs, and where the one that checks collects permissions.
* `Sequential.Relieved`: a body of both runs.
* `Setting.Relieved`, `Setting.transform_trusting`: the results of both runs.
* `Setting.transform_trusting_astray`: why the entries of a copy have to name labels of its own.
-/

namespace LayerCheck

/-! ## Blocks of two runs -/

namespace Block

/-- Changes on both sides keep what the blocks have in common, if labels are among it. -/
theorem forall₂_modifyFirst_modifyFirst {R : Block → Block → Prop} {l : String} {f g : Block → Block}
    (hl : ∀ b c, R b c → b.label = c.label) (hfg : ∀ b c, R b c → R (f b) (g c))
    {bs cs : List Block} (h : List.Forall₂ R bs cs) :
    List.Forall₂ R (modifyFirst l f bs) (modifyFirst l g cs) := by
  induction h with
  | nil => exact .nil
  | @cons b c bs cs hbc ht ih =>
    rw [modifyFirst, modifyFirst, hl b c hbc]
    split
    · exact .cons (hfg b c hbc) ht
    · exact .cons hbc ih

/-- What the passes after the opening of loops read of a block, but for what stands in it. -/
def outline (b : Block) : String × Transfer × Option Command := (b.label, b.transfer, b.preemption?)

end Block

theorem preemptions_eq_outline (bs : List Block) :
    preemptions bs = .ofList ((bs.map Block.outline).filterMap fun e => e.2.2.map (e.1, ·)) := by
  rw [preemptions, List.filterMap_map]
  rfl

namespace Sequential

variable {q : Sequential}

theorem spliced_eq_outline (heads : Table String Command) (bs : List Block) :
    q.spliced heads bs = ((((bs.map Block.outline).flatMap fun e =>
      e.2.1.targets.filterMap heads.get?).flatMap q.components).foldl
        (fun t c => Table.insertIfNew t c.id (q.completed c)) ∅).values := by
  rw [List.flatMap_map]
  rfl

theorem parCalls_eq_outline (q : Sequential) :
    q.parCalls = (q.opened.map Block.outline).filterMap fun e => e.2.2.bind Command.par? := by
  rw [parCalls, List.filterMap_map]
  congr 1
  funext b
  rw [Function.comp_apply, Block.outline, Block.preemption?]
  cases b.head? with
  | none => rfl
  | some c => cases c <;> rfl

/-! ## The run that trusts -/

end Sequential

/-- The setting in which interference is trusted. -/
def Setting.trusting (s : Setting) : Setting := { s with options := { trustNoninterference := true } }

namespace Sequential

variable {q : Sequential}

/-- The copy in the setting in which interference is trusted. -/
def trusting (q : Sequential) : Sequential := { q with setting := q.setting.trusting }

theorem base_trusting (q : Sequential) : q.trusting.base = q.base := by
  rw [base_eq, base_eq]
  rfl

theorem headers_trusting (q : Sequential) : q.trusting.headers = q.headers := by
  rw [headers, headers, base_trusting]
  rfl

theorem inLoops_trusting (q : Sequential) : q.trusting.inLoops = q.inLoops := by
  rw [inLoops, inLoops, base_trusting, headers_trusting]

theorem openings_trusting (q : Sequential) (k : Nat) : q.trusting.openings k = q.openings k := by
  rw [openings, openings, base_trusting, headers_trusting]

theorem Accepted.trusting (h : q.Accepted) : q.trusting.Accepted :=
  ⟨⟨h.closed, h.nonempty, h.unreserved, h.prepared_nodup, h.prepared⟩, h.faithful⟩

/-! ## Opening the loops -/

theorem opened_trusting (q : Sequential) : q.trusting.opened =
    q.headers.foldl (q.trusting.enterLoop q.base.flow q.inLoops) q.base.blocks := by
  rw [opened, base_trusting, headers_trusting, inLoops_trusting]

/-- Both runs add the same jumps. -/
theorem forall₂_opened_trusting (q : Sequential) :
    List.Forall₂ (fun c d : Block => c.label = d.label ∧ c.transfer = d.transfer) q.opened
      q.trusting.opened := by
  -- Both go through the same heads, and for each of them through the same predecessors.
  let R : Block → Block → Prop := fun c d => c.label = d.label ∧ c.transfer = d.transfer
  have hlabel : ∀ c d, R c d → c.label = d.label := fun _ _ h => h.1
  have hcheck : ∀ inLoop c d, R c d → R (checkStep inLoop c) (checkStep inLoop d) := by
    intro inLoop c d h
    rw [checkStep_eq, checkStep_eq]
    exact ⟨h.1, by rw [h.2]⟩
  have hopen : ∀ c d, R c d → R (q.openLoop c) (q.trusting.openLoop d) := fun _ _ h => h
  have henter : ∀ cs ds, List.Forall₂ R cs ds → ∀ header header', header = header' →
      List.Forall₂ R (q.enterLoop q.base.flow q.inLoops cs header)
        (q.trusting.enterLoop q.base.flow q.inLoops ds header') := by
    rintro cs ds h header _ rfl
    refine Block.forall₂_modifyFirst_modifyFirst hlabel hopen ?_
    refine List.rel_foldl (R := Eq) ?_ h (List.forall₂_refl _)
    rintro bs bs' hbs p _ rfl
    exact Block.forall₂_modifyFirst_modifyFirst hlabel (hcheck _) hbs
  rw [opened_trusting]
  exact List.rel_foldl henter (List.forall₂_same.mpr fun _ _ => ⟨rfl, rfl⟩) (List.forall₂_refl _)

/-- A block that is opened at least once heads a loop. -/
theorem mem_headers_of_openings {k : Nat} {b : Block} (hb : q.base.blocks[k]? = some b)
    (hk : q.openings k ≠ 0) : b.label ∈ q.headers := by
  obtain ⟨l, hl, hidx⟩ := List.countP_pos_iff.mp (Nat.pos_of_ne_zero hk)
  obtain ⟨hlt, hkl, -⟩ := List.idxOf?_eq_some_iff.mp (of_decide_eq_true hidx)
  have hlabel := Implementation.getElem?_labels hb
  rw [List.getElem?_eq_getElem hlt, hkl, Option.some_inj] at hlabel
  exact hlabel ▸ hl

namespace Accepted

variable (h : q.Accepted) {k : Nat} {b c : Block}
include h

/-- No loop has its head where a yield or a parallel call stands. -/
theorem openings_eq_zero (hb : q.base.blocks[k]? = some b) {m : Command} {rest : List Command}
    (hc : b.commands = m :: rest) (hm : m.isPreemption = true) : q.openings k = 0 := by
  by_contra hk
  exact label_notMem_of_head (List.mem_of_getElem? hb) hc hm
    (h.mem_labels_of_mem_headers (mem_headers_of_openings hb hk))

/-- Opening the loops leaves preemption points at the heads of blocks where they are. -/
theorem preemption?_opened (hb : q.base.blocks[k]? = some b)
    (hbc : q.Opened (q.openings k) b c) : c.preemption? = b.preemption? := by
  -- What is opened comes in front, so it would hide a yield; but the heads of loops have labels of
  -- the copy, and the split has put the yields into blocks with labels of their own.
  rcases of_mem_commands_base (List.mem_of_getElem? hb) with ⟨-, hp⟩ | ⟨-, m, rest, hc, hm, -⟩
  · have hplain : Command.Plain c.commands := fun m hm => by
      cases hpm : m.isPreemption with
      | false => rfl
      | true => rw [← hpm, hp m (hbc.mem_of_mem hm hpm)]
    exact (Command.Plain.head? hplain).trans (Command.Plain.head? hp).symm
  · have hcom := hbc.commands
    rw [h.openings_eq_zero hb hc hm] at hcom
    show c.commands.head?.filter _ = b.commands.head?.filter _
    rw [hcom]
    rfl

/-- **Opened blocks of both runs differ in what stands in them only.** -/
theorem exists_opened (hb : q.base.blocks[k]? = some b) : ∃ c d,
    q.opened[k]? = some c ∧ q.trusting.opened[k]? = some d ∧ c.outline = d.outline ∧
      q.Opened (q.openings k) b c ∧ q.trusting.Opened (q.openings k) b d := by
  obtain ⟨c, hc, hbc⟩ := getElem?_opened hb
  obtain ⟨d, hd, hbd⟩ := getElem?_opened (q := q.trusting) (by rw [base_trusting]; exact hb)
  obtain ⟨hlc, hc'⟩ := List.getElem?_eq_some_iff.mp hc
  obtain ⟨hld, hd'⟩ := List.getElem?_eq_some_iff.mp hd
  have htwin := q.forall₂_opened_trusting.get hlc hld
  rw [List.get_eq_getElem, List.get_eq_getElem, hc', hd'] at htwin
  have hpre : c.preemption? = d.preemption? :=
    (h.preemption?_opened hb hbc).trans
      (h.trusting.preemption?_opened (by rw [base_trusting]; exact hb) hbd).symm
  rw [openings_trusting] at hbd
  exact ⟨c, d, hc, hd, by rw [Block.outline, Block.outline, htwin.1, htwin.2, hpre], hbc, hbd⟩

theorem map_outline_opened : q.opened.map Block.outline = q.trusting.opened.map Block.outline := by
  refine List.ext_getElem? fun k => ?_
  rw [List.getElem?_map, List.getElem?_map]
  cases hb : q.base.blocks[k]? with
  | none =>
    have hk := List.getElem?_eq_none_iff.mp hb
    rw [List.getElem?_eq_none (by rw [length_opened]; exact hk),
      List.getElem?_eq_none (by rw [length_opened, base_trusting]; exact hk)]
  | some b =>
    obtain ⟨c, d, hc, hd, hcd, -⟩ := h.exists_opened hb
    rw [hc, hd, Option.map_some, Option.map_some, hcd]

theorem preemptions_opened_trusting : preemptions q.trusting.opened = preemptions q.opened := by
  rw [preemptions_eq_outline, preemptions_eq_outline, h.map_outline_opened]

theorem spliced_trusting (heads : Table String Command) :
    q.trusting.spliced heads q.trusting.opened = q.spliced heads q.opened := by
  rw [spliced_eq_outline, spliced_eq_outline, h.map_outline_opened]
  rfl

/-- **The same parallel calls are replaced in both runs.** -/
theorem parCalls_trusting : q.trusting.parCalls = q.parCalls := by
  rw [parCalls_eq_outline, parCalls_eq_outline, h.map_outline_opened]

end Accepted

/-! ## Blocks of both runs -/

theorem transfer_branch_congr {heads : Table String Command} {inLoops : List String} {c d : Block}
    (h : c.outline = d.outline) :
    (q.branch heads inLoops c).transfer = (q.branch heads inLoops d).transfer := by
  obtain ⟨l, cs, t⟩ := c
  obtain ⟨l', ds, t'⟩ := d
  obtain ⟨rfl, h⟩ := Prod.mk.inj h
  obtain ⟨rfl, -⟩ := Prod.mk.inj h
  have hnext : targets heads ⟨l, cs, t⟩ = targets heads ⟨l, ds, t⟩ := rfl
  rw [branch, branch]
  split
  · rfl
  · simp only [foldl_addSuccessor]
    rw [hnext]
    split <;> rfl

/-- Of a block `b` of the base that is opened `n` times, `c` is what becomes of it in the run that
checks interference, and `d` in the one that trusts it. -/
structure Collects (q : Sequential) (n : Nat) (b c d : Block) : Prop where
  label : c.label = b.label ∧ d.label = b.label
  transfer : c.transfer = d.transfer
  /-- Permissions are collected at a yield, when other threads have run. -/
  yield : ∀ id rest, b.commands = .yield id :: rest → ∃ pre post,
    c.commands = pre ++ (q.collect (.command id) ++ post) ∧ d.commands = pre ++ post
  /-- They are collected behind the call of an aggregator. -/
  par : ∀ p rest, b.commands = .par p :: rest → ∃ pre mid,
    c.commands = pre ++ .call p.aggregatorCall :: (mid ++ (q.collect (.command p.id) ++ rest)) ∧
      d.commands = pre ++ .call p.aggregatorCall :: (mid ++ rest)
  /-- They are collected each time that the block is opened as the head of a loop. -/
  head : b.preemption? = none → ∃ pre mid post,
    c.commands = pre ++ ((List.replicate n (mid ++ q.collect (q.headSite b.label))).flatten ++ post) ∧
      d.commands = pre ++ ((List.replicate n mid).flatten ++ post)

/-- Nothing is taken out of a block without a yield or a parallel call at its head. -/
theorem commands_finished_of_none {c : Block} (hc : c.preemption? = none) :
    (q.finished c).commands = c.commands := by
  rw [commands_finished]
  split
  · rename_i h
    rw [Block.preemption?, Block.head?, h] at hc
    cases hc
  · rename_i h
    rw [Block.preemption?, Block.head?, h] at hc
    cases hc
  · rfl

/-- **A block of both runs, once it is finished.** -/
theorem Accepted.collects (h : q.Accepted) {k : Nat} {b c d : Block}
    (hb : q.base.blocks[k]? = some b) (hcd : c.outline = d.outline)
    (hc : q.Opened (q.openings k) b c) (hd : q.trusting.Opened (q.openings k) b d) :
    q.Collects (q.openings k) b (q.finished c) (q.trusting.finished d) := by
  have hcollect : ∀ s, q.trusting.collect s = [] := fun _ => rfl
  constructor
  case label => exact ⟨(q.label_finished c).trans hc.label, (label_finished _ d).trans hd.label⟩
  case transfer =>
    rw [transfer_finished, transfer_finished, h.preemptions_opened_trusting, inLoops_trusting]
    exact transfer_branch_congr hcd
  case yield =>
    intro id rest hy
    have hzero := h.openings_eq_zero hb hy rfl
    have hc' := hc.commands
    have hd' := hd.commands
    rw [hzero, Function.iterate_zero_apply, hy] at hc' hd'
    rw [commands_finished, commands_finished, hc', hd', hc.label, hd.label, inLoops_trusting]
    refine ⟨(if q.inLoops.contains b.label then [] else q.refinement.endStep) ++
      Command.leadingPredicates rest ++ q.setting.havocGlobals ++ q.refinement.assumeGate ++
      q.setting.permissions.assumeDisjoint (.command id) q.scope q.globals ++ q.store,
      ((Command.leadingPredicates rest).filterMap Command.predicate?).map .assume ++
        rest.drop (Command.leadingPredicates rest).length, ?_, ?_⟩
    · simp only [afterYield, beginStep, List.append_assoc]
    · simp only [afterYield, beginStep, hcollect, List.append_assoc, List.nil_append]
      rfl
  case par =>
    intro p rest hy
    have hzero := h.openings_eq_zero hb hy rfl
    have hc' := hc.commands
    have hd' := hd.commands
    rw [hzero, Function.iterate_zero_apply, hy] at hc' hd'
    rw [commands_finished, commands_finished, hc', hd', hc.label, hd.label, inLoops_trusting]
    refine ⟨if q.inLoops.contains b.label then [] else
      if p.isRefining then q.refinement.endMarkedStep else q.refinement.endStep,
      q.refinement.assumeGate ++ q.store, ?_, ?_⟩
    · simp only [afterParCall, beginStep, List.append_assoc, List.cons_append]
    · simp only [afterParCall, beginStep, hcollect, List.append_assoc, List.cons_append,
        List.nil_append]
      rfl
  case head =>
    intro hp
    have hpc := (h.preemption?_opened hb hc).trans hp
    have hpd := (Prod.mk.inj (Prod.mk.inj hcd).2).2.symm.trans hpc
    -- The invariants come in once for each time, in front of what is repeated.
    rw [commands_finished_of_none hpc, commands_finished_of_none hpd, hc.commands, hd.commands,
      iterate_openedCommands, iterate_openedCommands]
    refine ⟨Command.leadingPredicates b.commands ++ (List.replicate (q.openings k)
      (q.refinement.assumeGate ++ q.loopInvariants b.label)).flatten, q.touchGlobals ++ q.store,
      b.commands.drop (Command.leadingPredicates b.commands).length, ?_, ?_⟩
    · rw [beginStep, List.append_assoc q.touchGlobals]
    · rw [beginStep, hcollect, List.append_nil]
      rfl

/-! ## Bodies of both runs -/

/-- If labels are distinct, the heads of loops are opened once. -/
theorem WellFormed.openings_eq (h : q.WellFormed) {k : Nat} {b : Block}
    (hb : q.base.blocks[k]? = some b) : q.openings k = if b.label ∈ q.headers then 1 else 0 := by
  have hk : q.base.indexOf? b.label = some k := by
    obtain ⟨hlt, hkl⟩ := List.getElem?_eq_some_iff.mp (Implementation.getElem?_labels hb)
    refine List.idxOf?_eq_some_iff.mpr ⟨hlt, hkl, fun j hj he => ?_⟩
    exact absurd ((h.nodup_base.getElem_inj_iff).mp (he.trans hkl.symm)) (Nat.ne_of_lt hj)
  rw [openings_eq_count hk]
  split
  · rename_i hm
    exact List.count_eq_one_of_mem (nodup_headers h.nodup_base) hm
  · rename_i hm
    exact List.count_eq_zero_of_not_mem hm

/-- `j` is the body in the run that checks interference, `j'` the body in the one that trusts it. -/
structure Relieved (q : Sequential) (j j' : Implementation) : Prop where
  fields : j' = { j with blocks := j'.blocks, locals := j'.locals }
  /-- One collector for each domain. -/
  locals : j.locals = j'.locals ++ q.setting.permissions.domains.values.map Domain.collector
  /-- Permissions of all domains are collected at once, by one command if there is a domain. -/
  collect : ∀ site scope, q.interference.collect site scope =
    if q.setting.permissions.domains.isEmpty then []
    else [.assign (q.setting.permissions.domains.values.map fun d => d.collector.name)
      ((q.setting.permissions.unions site scope).map Prod.snd)]
  /-- The blocks correspond: the initial ones, those of the base, and the checks, of which only the
  check of interference differs. -/
  blocks : ∃ e e' cs ds call checks, j.blocks =
      e :: (cs ++ .sink Label.noninterference [.call call] :: checks) ∧
    j'.blocks = e' :: (ds ++ .sink Label.noninterference [] :: checks) ∧
    call.callee = Dispatcher.name q.layer ∧
    e.label = Label.initial ∧ e'.label = Label.initial ∧ e.transfer = e'.transfer ∧
    e.commands = e'.commands ++ q.interference.collect q.plan.entrySite q.source.inputs ∧
    cs.length = q.base.blocks.length ∧ ds.length = q.base.blocks.length ∧
    ∀ k b, q.base.blocks[k]? = some b → ∃ c d, cs[k]? = some c ∧ ds[k]? = some d ∧
      q.Collects (q.openings k) b c d
  /-- Only where labels are repeated is the head of a loop opened more than once. -/
  once : q.source.labels.Nodup → ∀ k b, q.base.blocks[k]? = some b →
    q.openings k = if b.label ∈ q.headers then 1 else 0

theorem Accepted.labels_others_trusting (h : q.Accepted) :
    q.trusting.others.map Block.label = q.others.map Block.label := by
  have hfinished : ∀ r : Sequential, (r.opened.map r.finished).map Block.label = r.base.labels := by
    intro r
    rw [Block.map_label_map r.label_finished, labels_opened]
  have hothers : ∀ r : Sequential, r.others.map Block.label = r.base.labels ++
      r.checkers.map Block.label ++ (r.spliced (preemptions r.opened) r.opened).map Block.label := by
    intro r
    rw [← hfinished r, ← List.map_append, ← List.map_append]
    rfl
  rw [hothers, hothers, base_trusting, h.preemptions_opened_trusting, h.spliced_trusting]
  rfl

theorem transfer_initialBlock (q : Sequential) (bs : List Block) :
    (q.initialBlock bs).transfer = .goto (bs.map Block.label).head?.toList := by
  cases bs <;> rfl

/-- **The two bodies of a copy.** -/
theorem Accepted.relieved (h : q.Accepted) (ht : q.setting.trusted = false) :
    q.Relieved q.implementation q.trusting.implementation := by
  have hi := interference_eq ht
  constructor
  case fields => rfl
  case locals =>
    show q.source.locals ++ q.locals = q.source.locals ++ q.trusting.locals ++ _
    rw [locals, hi, List.append_assoc q.source.locals]
    congr 1
    show _ = (_ ++ []) ++ _
    rw [List.append_nil]
    rfl
  case collect =>
    intro site scope
    have hempty : (q.setting.permissions.domains.values.map fun d => d.collector.name).isEmpty =
        q.setting.permissions.domains.isEmpty := by
      rw [Table.values, List.map_map, List.isEmpty_map]
      rfl
    have hcollect : q.interference.collect site scope = Command.assignAll
        (q.setting.permissions.domains.values.map fun d => d.collector.name)
        ((q.setting.permissions.unions site scope).map Prod.snd) := by
      rw [hi]
      show Command.assignAll (List.map _ (List.map _ _)) _ = _
      rw [List.map_map]
      rfl
    rw [hcollect, Command.assignAll, hempty]
  case blocks =>
    obtain ⟨call, hcall, hcallee⟩ : ∃ call, q.interference.dispatch = [.call call] ∧
        call.callee = Dispatcher.name q.layer := by
      rw [hi]
      exact ⟨_, rfl, rfl⟩
    have hchecks : q.checkers = .sink Label.noninterference q.interference.dispatch ::
        q.checkers.tail := rfl
    have hchecks' : q.trusting.checkers = .sink Label.noninterference [] :: q.checkers.tail := rfl
    refine ⟨q.initialBlock q.others, q.trusting.initialBlock q.trusting.others,
      q.opened.map q.finished, q.trusting.opened.map q.trusting.finished, call,
      q.checkers.tail ++ q.spliced (preemptions q.opened) q.opened, ?_, ?_, hcallee, rfl, rfl, ?_,
      ?_, ?_, ?_, ?_⟩
    · rw [blocks_implementation, hchecks, hcall, List.append_assoc]
      rfl
    · rw [blocks_implementation, hchecks', h.preemptions_opened_trusting, h.spliced_trusting,
        List.append_assoc]
      rfl
    · rw [transfer_initialBlock, transfer_initialBlock, h.labels_others_trusting]
    · show _ = (_ ++ []) ++ _
      rw [List.append_nil]
      rfl
    · rw [List.length_map, length_opened]
    · rw [List.length_map, length_opened, base_trusting]
    · intro k b hb
      obtain ⟨c, d, hc, hd, hcd, hbc, hbd⟩ := h.exists_opened hb
      refine ⟨q.finished c, q.trusting.finished d, ?_, ?_, h.collects hb hcd hbc hbd⟩
      · rw [List.getElem?_map, hc, Option.map_some]
      · rw [List.getElem?_map, hd, Option.map_some]
  case once => exact fun hn k b hb => WellFormed.openings_eq ⟨h, hn⟩ hb

end Sequential

namespace Setting

variable {s : Setting} {l : Layer} {p : Program}

/-- `out` is the result of the run that checks interference, `out'` that of the one that trusts
it. -/
structure Relieved (s : Setting) (l : Layer) (plans : List Plan) (out out' : Program × LayerOutput) :
    Prop where
  globals : out'.1.globals = out.1.globals
  procedures : out'.1.procedures = out.1.procedures
  keys : out'.1.implementations.keys = out.1.implementations.keys
  /-- All but the copies that are made sequential are the same. -/
  other : ∀ name, (∀ plan ∈ plans, plan.isAtomicAt l = false → plan.name ≠ name) →
    out'.1.implementations.get? name = out.1.implementations.get? name
  body : ∀ plan ∈ plans, plan.isAtomicAt l = false → ∃ j j',
    out.1.implementations.get? plan.name = some j ∧
      out'.1.implementations.get? plan.name = some j' ∧
      Sequential.Relieved { setting := s, layer := l, plan } j j'
  /-- The aggregators and the dispatcher are left, which has nothing to run. -/
  declarations : ∃ names : List String, out.2.declarations =
      s.interferenceCheckers l plans ++
        (s.aggregators l plans out.1.procedures).values.map Declaration.procedure ++
        PendingAsync.declarations s l ++
        [.procedure (s.dispatcher l),
          .implementation (Dispatcher.implementation (s.dispatcher l) names)] ∧
    out'.2.declarations =
      (s.aggregators l plans out.1.procedures).values.map Declaration.procedure ++
        [.procedure (s.dispatcher l),
          .implementation (Dispatcher.implementation (s.dispatcher l) [])]
  dispatcher : (Dispatcher.implementation (s.dispatcher l) []).blocks =
    [{ label := "enter", commands := [], transfer := .ret }]
  summary : out'.2.summary = { out.2.summary with interferenceCheckers := [], pendingCheckers := [] }

/-- What is accepted if interference is checked has the same plans if it is trusted. -/
theorem plan_trusting {plans : List Plan} (h : s.plan l p = .ok plans) :
    s.trusting.plan l p = .ok plans :=
  plan_eq_ok_iff.mpr ⟨(plan_eq_ok_iff.mp h).1, fun ht => absurd ht Bool.noConfusion⟩

/-- **Both runs have the same aggregators.** -/
theorem aggregators_trusting {plans : List Plan}
    (h : ∀ plan ∈ plans, plan.isAtomicAt l = false →
      Sequential.Accepted { setting := s, layer := l, plan })
    (contracts : Table String Procedure) :
    s.trusting.aggregators l plans contracts = s.aggregators l plans contracts := by
  rw [aggregators, aggregators]
  congr 1
  refine List.flatMap_congr fun plan hm => ?_
  obtain ⟨hm, hc⟩ := List.mem_filter.mp hm
  exact (h plan hm (by simpa using hc)).parCalls_trusting

/-- What is not made sequential is the same in both runs. -/
theorem get?_transformProgram_trusting {plans : List Plan}
    (h : s.plan l p = .ok plans) {name : String}
    (hn : ∀ plan ∈ plans, plan.isAtomicAt l = false → plan.name ≠ name) :
    (s.trusting.transformProgram l plans p).implementations.get? name =
      (s.transformProgram l plans p).implementations.get? name := by
  have h' := plan_trusting h
  by_cases hex : name ∈ s.copies.implementations.keys
  · rw [← map_name_eq h] at hex
    obtain ⟨plan, hm, rfl⟩ := List.mem_map.mp hex
    have hat : plan.isAtomicAt l = true := by
      by_contra hc
      exact hn plan hm (by simpa using hc) rfl
    rw [get?_transformProgram h hm, get?_transformProgram h' hm, transformCopy_of_atomic hat,
      transformCopy_of_atomic hat]
    rfl
  · rw [get?_transformProgram_of_notMem h hex]
    exact get?_transformProgram_of_notMem h' hex

/-- **Trusting interference leaves out what is emitted for it, and nothing else.**  What is accepted
if interference is checked is accepted if it is trusted.  The bodies have the same blocks, labels and
jumps, and what the run that checks has beside the other is one collector for each domain, the
collecting of permissions where steps begin, the call of the dispatcher, and the checkers. -/
theorem transform_trusting (ht : s.trusted = false) {out : Program × LayerOutput}
    (h : s.transform l p = .ok out)
    (hf : ∀ plans, s.plan l p = .ok plans → ∀ plan ∈ plans, plan.isAtomicAt l = false →
      s.copies.Faithful plan.implementation) :
    ∃ plans out', s.plan l p = .ok plans ∧ s.trusting.transform l p = .ok out' ∧
      s.Relieved l plans out out' := by
  obtain ⟨plans, hp, rfl⟩ := transform_eq_ok.mp h
  have hp' := plan_trusting hp
  refine ⟨plans, _, hp, transform_eq_ok.mpr ⟨plans, hp', rfl⟩, ?_⟩
  have haccepted : ∀ plan ∈ plans, plan.isAtomicAt l = false →
      Sequential.Accepted { setting := s, layer := l, plan } := fun plan hm hc =>
    (Sequential.Produces.of_plan (q := { setting := s, layer := l, plan }) hp hm hc).accepted_blocks
      (hf plans hp plan hm hc)
  have haggregators := aggregators_trusting haccepted
  constructor
  case globals => rfl
  case procedures => rfl
  case keys => exact (keys_transformProgram hp').trans (keys_transformProgram hp).symm
  case other => exact fun name => get?_transformProgram_trusting hp
  case body =>
    intro plan hm hc
    refine ⟨_, _, get?_transformProgram hp hm, get?_transformProgram hp' hm, ?_⟩
    rw [transformCopy_of_concurrent hc, transformCopy_of_concurrent hc]
    exact (haccepted plan hm hc).relieved ht
  case declarations =>
    refine ⟨Declaration.procedureNames (s.interferenceCheckers l plans), rfl, ?_⟩
    show [] ++ (s.trusting.aggregators l plans _).values.map Declaration.procedure ++ [] ++ _ = _
    rw [haggregators, List.nil_append, List.append_nil]
    rfl
  case dispatcher => rfl
  case summary =>
    have hkeys := congrArg Table.keys (haggregators (s.transformProgram l plans p).procedures)
    exact congrArg (fun names => { (s.output l plans (s.transformProgram l plans p).procedures).summary
      with interferenceCheckers := [], pendingCheckers := [], aggregators := names }) hkeys

end Setting

/-- The counter is relieved of its collecting, and both runs skip the helper. -/
theorem Setting.transform_trusting_helped :
    Counter.helped.trusted = false ∧
      Counter.helped.transform 1 Counter.helpedProgram = .ok Counter.helpedOut ∧
      (∀ plans, Counter.helped.plan 1 Counter.helpedProgram = .ok plans → ∀ plan ∈ plans,
        plan.isAtomicAt 1 = false → Counter.helped.copies.Faithful plan.implementation) ∧
      ∃ plans out', Counter.helped.plan 1 Counter.helpedProgram = .ok plans ∧
        Counter.helped.trusting.transform 1 Counter.helpedProgram = .ok out' ∧
        Counter.helped.Relieved 1 plans Counter.helpedOut out' := by
  have hf : ∀ plans, Counter.helped.plan 1 Counter.helpedProgram = .ok plans → ∀ plan ∈ plans,
      plan.isAtomicAt 1 = false → Counter.helped.copies.Faithful plan.implementation := by
    intro plans hp plan hm _
    obtain rfl := Except.ok.inj (hp.symm.trans Counter.plan_helped)
    exact Counter.faithful_helped plan hm
  exact ⟨rfl, Counter.transform_helped, hf,
    transform_trusting rfl Counter.transform_helped hf⟩

/-! ## A loop whose head is a yield

The entries of a copy can name a label that only the splitting of its blocks brings about.  The head
of that loop is then the yield itself, and what is collected in front of the yield hides it.  Where
two blocks have the label of a head, the first of them is opened twice. -/

namespace Counter

def astray : Setting :=
  { facts := {
      procedures := .ofList [("Main", { kind := .mover .non, upper := 2 })]
      loops := .ofList [(⟨"Main", "L"⟩, { layers := [1] }), (⟨"Main", "H"⟩, { layers := [1] })] }
    permissions := ({} : Permissions).addDomain { name := "D", element := .int }
    copies := {
      implementations := .ofList [("Main_1", ⟨"Main", "Main"⟩)]
      blocks := .ofList [(⟨"Main_1", "A_0"⟩, ⟨"Main", "L"⟩), (⟨"Main_1", "H"⟩, ⟨"Main", "H"⟩)] }
    yielding := ["Main"] }

def astrayPlan : Plan :=
  { implementation := copy [
      { label := "A", commands := [.yield 1], transfer := .goto ["H"] },
      { label := "H", transfer := .goto ["H"] },
      { label := "H", transfer := .goto ["H"] }]
    procedure := { name := "Main_1" }
    origin := ⟨"Main", "Main"⟩
    yielding := { kind := .mover .non, upper := 2 }
    action? := none }

def astrayProgram : Program :=
  { procedures := .ofList [("Main_1", astrayPlan.procedure)]
    implementations := .ofList [("Main_1", astrayPlan.implementation)] }

theorem plan_astray : astray.plan 1 astrayProgram = .ok [astrayPlan] := by
  refine Setting.plan_singleton rfl rfl (Setting.checkConcurrent_of_reducible ?_ rfl) rfl
  cbv

theorem transform_astray {s : Setting} (h : s.plan 1 astrayProgram = .ok [astrayPlan]) :
    ∃ out, s.transform 1 astrayProgram = .ok out ∧
      out.1.implementations.get? "Main_1" =
        some (Sequential.implementation { setting := s, layer := 1, plan := astrayPlan }) := by
  refine ⟨_, Setting.transform_eq_ok.mpr ⟨_, h, rfl⟩, ?_⟩
  rw [show "Main_1" = astrayPlan.name from rfl, Setting.get?_transformProgram h
    (List.mem_singleton_self _), Setting.transformCopy_of_concurrent rfl]

def astrayCopy : Sequential := { setting := astray, layer := 1, plan := astrayPlan }

/-- The yield has become the head of a loop. -/
def astrayBlocks : List Block :=
  [{ label := "A", transfer := .goto ["A_0"] },
    { label := "H", transfer := .goto ["H"] }, { label := "H", transfer := .goto ["H"] },
    { label := "A_0", commands := [.yield 1], transfer := .goto ["H"] }]

theorem base_astray : astrayCopy.base = copy astrayBlocks := by
  unfold Sequential.base
  cbv

theorem headers_astray : astrayCopy.headers = ["H", "H", "A_0"] := by
  rw [Sequential.headers, base_astray]
  cbv

theorem inLoops_astray : astrayCopy.inLoops = ["H"] := by
  rw [Sequential.inLoops, base_astray, headers_astray]
  cbv

theorem predecessors_astray : (copy astrayBlocks).flow.predecessors "H" = ["H", "H", "A_0"] ∧
    (copy astrayBlocks).flow.predecessors "A_0" = ["A"] := by
  constructor <;> cbv

/-- What is collected once. -/
def astrayCollect : Command := .assign ["__perm_D"] [.app "D_empty" []]

theorem opened_astray : astrayCopy.opened = [
    { label := "A", transfer := .goto ["A_0", "NoninterferenceChecker", "RefinementChecker"] },
    { label := "H", commands := [astrayCollect, astrayCollect]
      transfer := .goto ["H", "NoninterferenceChecker", "RefinementCheckerForYieldingLoops"] },
    { label := "H", transfer := .goto ["H"] },
    { label := "A_0", commands := [astrayCollect, .yield 1]
      transfer := .goto ["H", "NoninterferenceChecker", "RefinementChecker"] }] := by
  rw [Sequential.opened, base_astray, headers_astray, inLoops_astray]
  simp only [List.foldl_cons, List.foldl_nil, Sequential.enterLoop, predecessors_astray.1,
    predecessors_astray.2]
  rfl

theorem opened_trusting_astray : astrayCopy.trusting.opened = [
    { label := "A", transfer := .goto ["A_0", "NoninterferenceChecker", "RefinementChecker"] },
    { label := "H"
      transfer := .goto ["H", "NoninterferenceChecker", "RefinementCheckerForYieldingLoops"] },
    { label := "H", transfer := .goto ["H"] },
    { label := "A_0", commands := [.yield 1]
      transfer := .goto ["H", "NoninterferenceChecker", "RefinementChecker"] }] := by
  rw [Sequential.opened_trusting, base_astray, headers_astray, inLoops_astray]
  simp only [List.foldl_cons, List.foldl_nil, Sequential.enterLoop, predecessors_astray.1,
    predecessors_astray.2]
  rfl

end Counter

/-- The run that checks interference leaves the yield in its block, the one that trusts it does not;
and the first block of the repeated head collects twice. -/
theorem Setting.transform_trusting_astray :
    Counter.astray.trusted = false ∧ ∃ out out' j j',
      Counter.astray.transform 1 Counter.astrayProgram = .ok out ∧
        Counter.astray.trusting.transform 1 Counter.astrayProgram = .ok out' ∧
        out.1.implementations.get? "Main_1" = some j ∧
        out'.1.implementations.get? "Main_1" = some j' ∧
        (j.blocks.tail.take 4).map (fun b => (b.label, b.commands)) =
          [("A", []), ("H", [Counter.astrayCollect, Counter.astrayCollect]), ("H", []),
            ("A_0", [Counter.astrayCollect, .yield 1])] ∧
        (j'.blocks.tail.take 4).map (fun b => (b.label, b.commands)) =
          [("A", []), ("H", []), ("H", []), ("A_0", [])] := by
  obtain ⟨out, ho, hj⟩ := Counter.transform_astray Counter.plan_astray
  obtain ⟨out', ho', hj'⟩ := Counter.transform_astray (plan_trusting Counter.plan_astray)
  refine ⟨rfl, out, out', _, _, ho, ho', hj, hj', ?_, ?_⟩
  · show (Counter.astrayCopy.implementation.blocks.tail.take 4).map _ = _
    rw [Sequential.take_implementation (by rw [Counter.opened_astray]; rfl), Counter.opened_astray]
    simp only [List.map_cons, List.map_nil, Sequential.label_finished, Sequential.commands_finished]
    rfl
  · show (Counter.astrayCopy.trusting.implementation.blocks.tail.take 4).map _ = _
    rw [Sequential.take_implementation (by rw [Counter.opened_trusting_astray]; rfl),
      Counter.opened_trusting_astray]
    simp only [List.map_cons, List.map_nil, Sequential.label_finished, Sequential.commands_finished,
      Sequential.inLoops_trusting, Counter.inLoops_astray]
    rfl

end LayerCheck
