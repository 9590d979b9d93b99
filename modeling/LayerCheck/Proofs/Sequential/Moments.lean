import LayerCheck.Proofs.Interference.Dispatch
import LayerCheck.Proofs.Permission.Insertion
import LayerCheck.Proofs.Sequential.Shape
import LayerCheck.Proofs.Sequential.Stored
import Mathlib

/-!
# What the checks of interference get to see

Along any execution, wherever the body branches off to the check of interference, the dispatcher
gets the permissions and globals of the moment at which the fragment began that ends there.  A jump
leads to the first block with its label, so that this holds of bodies with repeated labels as well.

* `Implementation.Comes`: the executions of a body.
* `Sequential.At`: the executions of a sequential body, each with the moment at which the fragment
  began.
* `Sequential.At.stored_or_ends`: what is stored is from that moment.
* `Sequential.Produces.arguments_of_moment`: what the dispatcher is called with.
-/

namespace LayerCheck

open Interpretation Command

variable {M : Interpretation} {σ : Surroundings M} {s t : M.State}

/-- The union of what the variables of the domain carried at the moment that were available then. -/
def Moment.permissions (μ : Moment M) (p : Permissions) (d : Domain) : M.Value :=
  d.unionOf ((p.availableIn μ.scope μ.site d).map fun v =>
    M.app (d.name ++ "_collect") [μ.state v.name])

theorem Moment.permissions_eq (μ : Moment M) (p : Permissions) (d : Domain) :
    μ.permissions p d = d.unionOf (d.carried (p.available μ.site μ.scope) μ.state) := by
  rw [permissions, Domain.carried, p.filter_available]

/-- From the first block, entered in any state, an execution may come to the end of the block in the
state. A jump leads to the first block with the label. -/
inductive Implementation.Comes (σ : Surroundings M) (j : Implementation) : Block → M.State → Prop
  | start {b : Block} {s t : M.State} (hb : j.blocks.head? = some b) (h : Runs σ b.commands s t) :
    Comes σ j b t
  | jump {c d : Block} {l : String} {s t : M.State} (hc : Comes σ j c s) (hl : l ∈ c.successors)
    (hd : j.block? l = some d) (h : Runs σ d.commands s t) : Comes σ j d t

namespace Sequential

variable {q : Sequential} {μ : Moment M} {l : String} {b c d : Block}

/-- An execution may come to the end of the block in the state, in a fragment that began at the
moment. -/
inductive At (q : Sequential) (σ : Surroundings M) (j : Implementation) :
    Block → Moment M → M.State → Prop
  /-- A fragment begins on entry, when the globals have arbitrary values. -/
  | entry {b : Block} {s m t : M.State} {after : List Command} (hb : j.blocks.head? = some b)
    (hcut : b.commands = q.setting.havocGlobals ++ after)
    (hm : Runs σ q.setting.havocGlobals s m) (ht : Runs σ after m t) :
    At q σ j b ⟨m, q.plan.entrySite, q.source.inputs⟩ t
  /-- The fragment goes on. -/
  | step {c d : Block} {μ : Moment M} {l : String} {s t : M.State} (h : At q σ j c μ s)
    (hl : l ∈ c.successors) (hi : l ≠ Label.initial) (hn : ¬ q.BeginsStep l)
    (hd : j.block? l = some d) (ht : Runs σ d.commands s t) : At q σ j d μ t
  /-- A fragment begins where the head of a yielding loop is entered. -/
  | loop {c d : Block} {μ : Moment M} {l : String} {s t : M.State} (h : At q σ j c μ s)
    (hl : l ∈ c.successors) (hh : l ∈ q.headers) (hd : j.block? l = some d)
    (ht : Runs σ d.commands s t) : At q σ j d ⟨s, q.headSite l, q.scope⟩ t
  /-- A fragment begins at a yield, when other threads have run. -/
  | yield {b c d : Block} {μ : Moment M} {l : String} {s m n t : M.State} {id : CommandId}
    {rest after : List Command} (h : At q σ j c μ s) (hl : l ∈ c.successors)
    (hb : q.base.block? l = some b) (hy : b.commands = .yield id :: rest)
    (hd : j.block? l = some d)
    (hcut : d.commands =
      q.beforeHavoc (q.inLoops.contains l) rest ++ (q.setting.havocGlobals ++ after))
    (hm : Runs σ (q.beforeHavoc (q.inLoops.contains l) rest) s m)
    (hn : Runs σ q.setting.havocGlobals m n) (ht : Runs σ after n t) :
    At q σ j d ⟨n, .command id, q.scope⟩ t
  /-- A fragment begins at a parallel call, when its aggregator has been called. -/
  | par {b c d : Block} {μ : Moment M} {l : String} {s m n t : M.State} {p : ParCall}
    {rest after : List Command} (h : At q σ j c μ s) (hl : l ∈ c.successors)
    (hb : q.base.block? l = some b) (hp : b.commands = .par p :: rest) (hd : j.block? l = some d)
    (hcut : d.commands =
      q.beforeCall (q.inLoops.contains l) p ++ .call p.aggregatorCall :: after)
    (hm : Runs σ (q.beforeCall (q.inLoops.contains l) p) s m)
    (hn : Step σ m n (.call p.aggregatorCall)) (ht : Runs σ after n t) :
    At q σ j d ⟨n, .command p.id, q.scope⟩ t

/-! ## The first block with a label -/

theorem head?_blocks (q : Sequential) :
    q.implementation.blocks.head? = some (q.initialBlock q.others) := rfl

theorem block?_initial (q : Sequential) :
    q.implementation.block? Label.initial = some (q.initialBlock q.others) :=
  List.find?_cons_of_pos (by rfl)

/-- Every other block but the initial one is a check. -/
theorem of_block?_implementation (hl : l ∉ q.base.labels) (hi : l ≠ Label.initial)
    (hd : q.implementation.block? l = some d) :
    d ∈ q.checkers ∨ d ∈ q.spliced (preemptions q.opened) q.opened := by
  obtain ⟨hm, hdl⟩ := Implementation.of_block? hd
  rw [blocks_implementation, List.mem_cons, List.mem_append, List.mem_append] at hm
  rcases hm with rfl | (hm | hm) | hm
  · exact absurd hdl.symm hi
  · obtain ⟨c, hc, rfl⟩ := List.mem_map.mp hm
    rw [label_finished] at hdl
    exact absurd (q.labels_opened ▸ hdl ▸ List.mem_map_of_mem hc) hl
  · exact .inl hm
  · exact .inr hm

namespace Accepted

variable (h : q.Accepted)

include h in
/-- **The first block with a label of the base** has been opened, finished and kept. -/
theorem block?_implementation (hb : q.base.block? l = some b) :
    ∃ c, q.Opened (q.headers.count l) b c ∧ q.implementation.block? l = some (q.finished c) := by
  obtain ⟨c, hc, hbc⟩ := find?_opened hb
  refine ⟨c, hbc, ?_⟩
  have hl : l ∈ q.base.labels := Implementation.mem_labels.mpr ⟨b, Implementation.of_block? hb⟩
  have hne : Label.initial ≠ l := fun he => (h.of_mem_labels_base hl).1 (he ▸ by decide)
  rw [Implementation.block?, blocks_implementation, List.find?_cons_of_neg, List.append_assoc,
    List.find?_append, find?_finished, hc]
  · rfl
  · simpa using hne

include h in
/-- The check of interference is where it should be. -/
theorem block?_noninterference : q.implementation.block? Label.noninterference =
    some (.sink Label.noninterference q.interference.dispatch) := by
  have hnone : (q.opened.map q.finished).find? (·.label == Label.noninterference) = none := by
    rw [find?_finished, Option.map_eq_none_iff, List.find?_eq_none]
    intro c hc hcl
    have hm : c.label ∈ q.base.labels := q.labels_opened ▸ List.mem_map_of_mem hc
    have hcl : c.label = Label.noninterference := by simpa using hcl
    exact (h.of_mem_labels_base hm).1 (hcl ▸ by decide)
  rw [Implementation.block?, blocks_implementation, List.find?_cons_of_neg, List.append_assoc,
    List.find?_append, hnone]
  · rfl
  · rw [label_initialBlock]
    decide

end Accepted

/-! ## What a block does -/

namespace Accepted

variable (h : q.Accepted)

include h in
/-- No loop has its head where a yield or a parallel call stands. -/
theorem count_headers {m : Command} {rest : List Command} (hb : b ∈ q.base.blocks)
    (hc : b.commands = m :: rest) (hm : m.isPreemption = true) :
    q.headers.count b.label = 0 := by
  exact List.count_eq_zero_of_not_mem fun hh =>
    label_notMem_of_head hb hc hm (h.mem_labels_of_mem_headers hh)

include h in
/-- A block without preemption point at its head is opened. -/
theorem commands_of_plain (hb : q.base.block? l = some b) (hp : Plain b.commands)
    (hd : q.implementation.block? l = some d) :
    d.commands = (q.openedCommands l)^[q.headers.count l] b.commands := by
  have hbl := (Implementation.of_block? hb).2
  obtain ⟨c, hbc, hcd⟩ := h.block?_implementation hb
  rw [hd, Option.some_inj] at hcd
  have hplain : Plain c.commands := fun m hm => by
    cases hpm : m.isPreemption with
    | false => rfl
    | true => rw [← hpm, hp m (hbc.mem_of_mem hm hpm)]
  have hcom := hbc.commands
  rw [hbl] at hcom
  rw [hcd, commands_finished, ← hcom]
  split
  · rename_i id rest hc
    exact absurd (hplain _ (hc ▸ List.mem_cons_self)) (by simp [isPreemption])
  · rename_i p rest hc
    exact absurd (hplain _ (hc ▸ List.mem_cons_self)) (by simp [isPreemption])
  · rfl

include h in
/-- A block with a preemption point at its head stays as it is until this is taken out. -/
theorem commands_of_head {m : Command} {rest : List Command} (hb : q.base.block? l = some b)
    (hc : b.commands = m :: rest) (hm : m.isPreemption = true)
    (hd : q.implementation.block? l = some d) :
    ∃ c : Block, d = q.finished c ∧ c.label = l ∧ c.commands = m :: rest := by
  have hbl := (Implementation.of_block? hb).2
  obtain ⟨c, hbc, hcd⟩ := h.block?_implementation hb
  refine ⟨c, Option.some_inj.mp (hd.symm.trans hcd), hbc.label.trans hbl, ?_⟩
  have hcom := hbc.commands
  rw [← hbl, h.count_headers (Implementation.of_block? hb).1 hc hm] at hcom
  rw [hcom, Function.iterate_zero_apply, hc]

include h in
theorem commands_of_yield {id : CommandId} {rest : List Command} (hb : q.base.block? l = some b)
    (hy : b.commands = .yield id :: rest) (hd : q.implementation.block? l = some d) :
    d.commands = q.beforeHavoc (q.inLoops.contains l) rest ++
      (q.setting.havocGlobals ++ q.afterHavoc id rest) := by
  obtain ⟨c, rfl, hl, hc⟩ := h.commands_of_head hb hy rfl hd
  rw [commands_finished, hc, hl, ← afterYield_eq]

include h in
theorem commands_of_par {p : ParCall} {rest : List Command} (hb : q.base.block? l = some b)
    (hp : b.commands = .par p :: rest) (hd : q.implementation.block? l = some d) :
    d.commands = q.beforeCall (q.inLoops.contains l) p ++
      .call p.aggregatorCall :: q.afterCall p rest := by
  obtain ⟨c, rfl, hl, hc⟩ := h.commands_of_head hb hp rfl hd
  rw [commands_finished, hc, hl, ← afterParCall_eq]

end Accepted

/-! ## Where executions end -/

/-- The block goes nowhere but to checks of the last step. -/
def Ends (c : Block) : Prop :=
  ∀ l ∈ c.successors, l = Label.returning ∨ l = Label.loopRefinement

/-- What is spliced in ends there, if the prepared checks lead nowhere. -/
theorem ends_of_mem_spliced
    (hp : ∀ r ∈ (q.setting.preparedBlocks q.source).values, r.successors = [])
    (hd : d ∈ q.spliced (preemptions q.opened) q.opened) : Ends d := by
  obtain ⟨k, hk, rfl⟩ := mem_spliced_iff.mp hd
  have hblock := hp _ (q.prepared_opened.block_mem (List.mem_of_find?_eq_some hk))
  intro l hl
  rw [(WellFormed.mem_successors_completed_iff hblock).mp hl]
  split
  · exact .inl rfl
  · exact .inr rfl

/-- Nothing but blocks of the base and the initial one leads on. -/
theorem ends_of_notMem_base
    (hp : ∀ r ∈ (q.setting.preparedBlocks q.source).values, r.successors = [])
    (hl : l ∉ q.base.labels) (hi : l ≠ Label.initial)
    (hd : q.implementation.block? l = some d) : Ends d := by
  rcases of_block?_implementation hl hi hd with hk | hs
  · intro l hl
    rw [Block.successors, transfer_of_mem_checkers hk] at hl
    exact absurd hl List.not_mem_nil
  · exact ends_of_mem_spliced hp hs

/-! ## What is stored along an execution -/

namespace Accepted

variable (h : q.Accepted)

include h in
/-- A label of the base at which no fragment begins is that of a block that is kept. -/
theorem commands_of_not_beginsStep (hb : q.base.block? l = some b) (hn : ¬ q.BeginsStep l)
    (hd : q.implementation.block? l = some d) : d.commands = b.commands := by
  obtain ⟨hbm, hbl⟩ := Implementation.of_block? hb
  have hp : Plain b.commands := by
    rcases of_mem_commands_base hbm with ⟨-, hp⟩ | ⟨-, m, rest, hc, hm, -⟩
    · exact hp
    · exact absurd (.inr ⟨b, hbm, hbl, m, rest, hc, hm⟩) hn
  rw [h.commands_of_plain hb hp hd, List.count_eq_zero_of_not_mem fun hh => hn (.inl hh),
    Function.iterate_zero_apply]

include h in
/-- The head of a loop has been opened at least once. -/
theorem commands_of_mem_headers (hh : l ∈ q.headers) (hd : q.implementation.block? l = some d) :
    ∃ b ∈ q.base.blocks, b.label = l ∧
      ∃ n, d.commands = (q.openedCommands l)^[n + 1] b.commands := by
  have hl : l ∈ q.base.labels := List.mem_of_mem_filter hh
  obtain ⟨b, hb⟩ := Implementation.exists_block? hl
  obtain ⟨hbm, hbl⟩ := Implementation.of_block? hb
  refine ⟨b, hbm, hbl, q.headers.count l - 1, ?_⟩
  rw [h.commands_of_plain hb (h.plain_of_mem_headers hbm (hbl ▸ hh)) hd,
    Nat.sub_add_cancel (List.count_pos_iff.mpr hh)]

end Accepted

/-- **What is stored is from the moment at which the fragment began**, unless the block goes nowhere
but to checks of the last step.  Induction on the execution: a block in the midst of a fragment
leaves it alone, and where a fragment begins it is stored anew. -/
theorem At.stored_or_ends (h : q.Accepted) (hr : q.Reserved σ)
    (hp : ∀ r ∈ (q.setting.preparedBlocks q.source).values, r.successors = [])
    (hat : At q σ q.implementation c μ s) : q.Stored μ s ∨ Ends c := by
  induction hat with
  | @entry b s m t after hb hcut hm ht =>
    left
    rw [head?_blocks, Option.some_inj] at hb
    rw [← hb, commands_initialBlock, List.append_cancel_left_eq] at hcut
    exact hr.stored_afterEntry (hcut ▸ ht)
  | @step c d μ l s t _ hl hi hn hd ht ih =>
    by_cases hlb : l ∈ q.base.labels
    · left
      obtain ⟨b, hb⟩ := Implementation.exists_block? hlb
      rw [h.commands_of_not_beginsStep hb hn hd] at ht
      have hres := (h.of_mem_labels_base hlb).1
      rcases ih with hs | he
      · exact hr.stored_of_base (Implementation.of_block? hb).1 (List.Subset.refl _) ht hs
      · rcases he l hl with rfl | rfl
        · exact absurd (by decide) hres
        · exact absurd (by decide) hres
    · exact .inr (ends_of_notMem_base hp hlb hi hd)
  | @loop c d μ l s t _ _ hh hd ht =>
    left
    obtain ⟨b, hb, rfl, n, hc⟩ := h.commands_of_mem_headers hh hd
    exact hr.stored_opened hb (hc ▸ ht)
  | @yield b c d μ l s m n t id rest after _ _ hb hy hd hcut _ _ ht =>
    left
    rw [h.commands_of_yield hb hy hd, List.append_cancel_left_eq,
      List.append_cancel_left_eq] at hcut
    exact hr.stored_afterHavoc (Implementation.of_block? hb).1 hy (hcut ▸ ht)
  | @par b c d μ l s m n t p rest after _ _ hb hpar hd hcut _ _ ht =>
    left
    rw [h.commands_of_par hb hpar hd, List.append_cancel_left_eq, List.cons.injEq] at hcut
    exact hr.stored_afterCall (Implementation.of_block? hb).1 hpar (hcut.2 ▸ ht)

/-! ## Every execution is cut into fragments -/

theorem At.comes {j : Implementation} (hat : At q σ j c μ s) : j.Comes σ c s := by
  induction hat with
  | entry hb hcut hm ht => exact .start hb (hcut ▸ runs_append.mpr ⟨_, hm, ht⟩)
  | step _ hl _ _ hd ht ih => exact .jump ih hl hd ht
  | loop _ hl _ hd ht ih => exact .jump ih hl hd ht
  | yield _ hl _ _ hd hcut hm hn ht ih =>
    exact .jump ih hl hd (hcut ▸ runs_append.mpr ⟨_, hm, runs_append.mpr ⟨_, hn, ht⟩⟩)
  | par _ hl _ _ hd hcut hm hn ht ih =>
    exact .jump ih hl hd (hcut ▸ runs_append.mpr ⟨_, hm, _, hn, ht⟩)

/-- Where a fragment begins at a preemption point, the first block with the label has one as well:
the label is a new one. -/
theorem exists_head_of_beginsStep (hn : q.BeginsStep l) : l ∈ q.headers ∨
    ∃ b, q.base.block? l = some b ∧ ∃ m rest, b.commands = m :: rest ∧ m.isPreemption = true := by
  rcases hn with hh | ⟨c, hc, rfl, m, rest, hcom, hm⟩
  · exact .inl hh
  right
  obtain ⟨b, hb⟩ := Implementation.exists_block? (Implementation.mem_labels.mpr ⟨c, hc, rfl⟩)
  obtain ⟨hbm, hbl⟩ := Implementation.of_block? hb
  rcases of_mem_commands_base hbm with ⟨hs, -⟩ | ⟨-, m', rest', hcom', hm', -⟩
  · exact absurd (hbl ▸ hs) (label_notMem_of_head hc hcom hm)
  · exact ⟨b, hb, m', rest', hcom', hm'⟩

/-- The initial block begins a fragment. -/
theorem exists_entry {j : Implementation} (hb : j.blocks.head? = some (q.initialBlock q.others))
    (hr : Runs σ (q.initialBlock q.others).commands s t) :
    ∃ μ, At q σ j (q.initialBlock q.others) μ t := by
  have hcut := q.commands_initialBlock q.others
  rw [hcut, runs_append] at hr
  obtain ⟨m, hm, ht⟩ := hr
  exact ⟨_, .entry hb hcut hm ht⟩

/-- **An execution to the end of a block is cut into fragments.** -/
theorem Accepted.exists_at (h : q.Accepted) (hc : q.implementation.Comes σ c s) :
    ∃ μ, At q σ q.implementation c μ s := by
  induction hc with
  | @start b s t hb hr =>
    obtain rfl : q.initialBlock q.others = b := Option.some_inj.mp hb
    exact exists_entry hb hr
  | @jump c d l s t _ hl hd hr ih =>
    obtain ⟨μ, hat⟩ := ih
    by_cases hi : l = Label.initial
    · rw [hi, block?_initial, Option.some_inj] at hd
      subst hd
      exact exists_entry q.head?_blocks hr
    by_cases hn : q.BeginsStep l
    · rcases exists_head_of_beginsStep hn with hh | ⟨b, hb, m, rest, hcom, hm⟩
      · exact ⟨_, hat.loop hl hh hd hr⟩
      cases m with
      | yield id =>
        have hcut := h.commands_of_yield hb hcom hd
        rw [hcut, runs_append] at hr
        obtain ⟨m, hr₁, hr₂⟩ := hr
        obtain ⟨n, hr₂, hr₃⟩ := runs_append.mp hr₂
        exact ⟨_, hat.yield hl hb hcom hd hcut hr₁ hr₂ hr₃⟩
      | par p =>
        have hcut := h.commands_of_par hb hcom hd
        rw [hcut, runs_append] at hr
        obtain ⟨m, hr₁, n, hr₂, hr₃⟩ := hr
        exact ⟨_, hat.par hl hb hcom hd hcut hr₁ hr₂ hr₃⟩
      | _ => simp [isPreemption] at hm
    · exact ⟨μ, hat.step hl hi hn hd hr⟩

/-! ## The arguments of the dispatcher -/

namespace Stored

/-- The arguments of the dispatcher are what is stored. -/
theorem map_eval_collectors (h : q.Stored μ s) (ht : q.setting.trusted = false) (pre : M.State) :
    ((q.setting.permissions.domains.values.map Domain.collector ++
      Snapshot.shadows q.globals).map Variable.expr).map (·.eval s pre) =
    q.setting.permissions.domains.values.map (μ.permissions q.setting.permissions) ++
      q.globals.map fun g => μ.state g.name := by
  simp only [Snapshot.shadows, List.map_append, List.map_map]
  congr 1
  · refine List.map_congr_left fun d hd => ?_
    exact (h.permissions ht d hd).trans (μ.permissions_eq q.setting.permissions d).symm
  · exact List.map_congr_left fun g hg => h.globals g hg

end Stored

/-- **The dispatcher gets what was there when the fragment began.**  Wherever an execution of the
body branches off to the check of interference, the dispatcher of the layer is called with one
argument for each of its formals: for each domain the union of what those linear variables carried
that were available at the beginning of the fragment, and the globals as they were then.  If an
action is refined, the copies of the outputs are from the same moment. -/
theorem Produces.arguments_of_moment {p : Program} {out : Program × LayerOutput}
    {j : Implementation} (h : q.Produces p out j) (hf : q.setting.copies.Faithful q.source)
    (hp : ∀ r ∈ (q.setting.preparedBlocks q.source).values, r.successors = [])
    (ht : q.setting.trusted = false) (hr : q.Reserved σ) (hc : j.Comes σ c s)
    (hn : Label.noninterference ∈ c.successors) :
    let dispatcher := q.setting.dispatcher q.layer
    let domains := q.setting.permissions.domains.values
    .procedure dispatcher ∈ out.2.declarations ∧
    dispatcher.inputs = q.setting.checkFormals ∧
    ∃ call : Call,
      j.block? Label.noninterference = some (.sink Label.noninterference [.call call]) ∧
      call.callee = dispatcher.name ∧ call.ins.length = dispatcher.inputs.length ∧
      (∃ μ, At q σ j c μ s) ∧
      ∀ μ, At q σ j c μ s →
        call.ins.map (·.eval s σ.pre) =
          domains.map (μ.permissions q.setting.permissions) ++
          q.globals.map (fun g => μ.state g.name) ∧
        (q.plan.action?.isSome → ∀ o ∈ q.source.outputs,
          s ("__old_out_" ++ o.name) = μ.state o.name) := by
  have ha := h.accepted_blocks hf
  obtain ⟨plans, hplan, -⟩ := h.planned
  have hdecl : .procedure (q.setting.dispatcher q.layer) ∈ out.2.declarations := by
    rw [h.out_eq hplan]
    exact List.mem_append_right _ List.mem_cons_self
  rw [h.eq_implementation] at hc ⊢
  have hcall := ha.block?_noninterference
  rw [interference_eq ht] at hcall
  refine ⟨hdecl, rfl, _, hcall, rfl, ?_, ha.exists_at hc, fun μ hat => ?_⟩
  · rw [List.length_map, Setting.dispatcher, Dispatcher.procedure, Setting.checkerInputs,
      Checker.inputs, Tracker.collectors, Snapshot.shadows]
    simp only [List.length_append, List.length_map]
    rfl
  · rcases hat.stored_or_ends ha hr hp with hs | he
    · exact ⟨hs.map_eval_collectors ht σ.pre, hs.outputs⟩
    · rcases he _ hn with he | he
      · exact absurd he (by decide)
      · exact absurd he (by decide)

end Sequential

/-! ## A thread that holds a permission

A procedure that identifies its thread by a linear variable and has one output, of any names, for
any blocks of its body.  At the yield `1` the variable `t` is available. -/

namespace Counter

open LayerCheck.Sequential

def ticket (v : String) : Variable := { name := v, type := .int, domain? := some "tid" }

def result (r : String) : Variable := { name := r, type := .bool }

def take : AtomicAction :=
  { name := "Take", inputs := [ticket "t"], outputs := [result "r"], layers := ⟨1, 2⟩ }

def ticketed : Setting :=
  { facts := {
      globals := [x]
      procedures := .ofList [("Main", { kind := .action "Take", upper := 1 })]
      actions := .ofList [("Take", take)] }
    permissions := threads.record (.command 1) ["t"]
    copies := {
      implementations := .ofList [("Main_1", ⟨"Main", "Main"⟩)]
      blocks := .ofList [(⟨"Main_1", "A"⟩, ⟨"Main", "A"⟩)] } }

def ticketCopy (v r : String) (blocks : List Block) : Implementation :=
  { copy blocks with inputs := [ticket v], outputs := [result r] }

def ticketContract (v r : String) : Procedure :=
  { name := "Main_1", inputs := [ticket v], outputs := [result r] }

def ticketProgram (v r : String) (blocks : List Block) : Program :=
  { globals := [x]
    procedures := .ofList [("Main_1", ticketContract v r)]
    implementations := .ofList [("Main_1", ticketCopy v r blocks)]
    implementations_keyed := by simp [ticketCopy, copy] }

def ticketSequential (v r : String) (blocks : List Block) : Sequential :=
  { setting := ticketed, layer := 1
    plan := {
      implementation := ticketCopy v r blocks
      procedure := ticketContract v r
      origin := ⟨"Main", "Main"⟩
      yielding := { kind := .action "Take", upper := 1 }
      action? := some take } }

theorem exists_produces_ticket {v r : String} {blocks : List Block}
    (hb : (ticketCopy v r blocks).checkBlocks = .ok ())
    (hc : ticketed.checkConcurrent 1 (ticketProgram v r blocks) (ticketCopy v r blocks) = .ok ()) :
    ∃ out, (ticketSequential v r blocks).Produces (ticketProgram v r blocks) out
      (ticketSequential v r blocks).implementation := by
  have hcopy : ticketed.planCopy 1 (ticketProgram v r blocks) "Main_1" ⟨"Main", "Main"⟩ =
      .ok (ticketSequential v r blocks).plan := by
    have h : ticketed.planCopy 1 (ticketProgram v r blocks) "Main_1" ⟨"Main", "Main"⟩ = (do
        (ticketCopy v r blocks).checkBlocks
        ticketed.checkConcurrent 1 (ticketProgram v r blocks) (ticketCopy v r blocks)
        return (ticketSequential v r blocks).plan) := rfl
    rw [h, hb, hc]
    rfl
  have hp : ticketed.plan 1 (ticketProgram v r blocks) =
      .ok [(ticketSequential v r blocks).plan] := by
    have he : ticketed.copies.implementations.entries = [("Main_1", ⟨"Main", "Main"⟩)] := rfl
    rw [Setting.plan, he]
    simp only [List.mapM_cons, hcopy]
    rfl
  exact ⟨_, Sequential.Produces.of_plan hp (List.mem_singleton_self _) rfl⟩

theorem faithful_ticket {v r : String} {b : Block} (hb : b.label = "A") :
    (ticketSequential v r [b]).setting.copies.Faithful (ticketSequential v r [b]).source := by
  intro e he _
  rw [List.mem_singleton.mp he]
  exact hb ▸ List.mem_cons_self

/-- Sets of permissions are what they are collected from. -/
noncomputable def tokens : Interpretation :=
  { model with app := fun _ vs => vs.headD (model.bool false) }

/-- The surroundings of the counter. -/
noncomputable abbrev calm : Surroundings tokens :=
  { pre := fun _ => tokens.int 0, globals := [x.name] }

/-- The counter has the value one, a flag is set, and all else has the value seven. -/
noncomputable def initially : tokens.State := fun y =>
  if y = x.name then tokens.int 1 else if y = "__pc" then tokens.bool true else tokens.int 7

theorem runs_havoc_ticketed (s : tokens.State) (n : Int) :
    Runs calm ticketed.havocGlobals s (Function.update s x.name (tokens.int n)) :=
  runs_singleton.mpr fun _ hy =>
    Function.update_of_ne (fun h => hy (List.mem_singleton.mpr h)) _ _

/-- What is stored on entry, one after the other. -/
noncomputable def entered (v r : String) (s : tokens.State) : tokens.State :=
  let copied := Function.update s "__snapshot_x" (s x.name)
  let flagged := Function.update (Function.update copied "__pc" (tokens.bool false)) "__ok"
    (tokens.bool false)
  let saved := Function.update flagged ("__old_out_" ++ r) (flagged r)
  Function.update saved "__perm_tid" (saved v)

theorem runs_afterEntry_ticket (v r : String) (blocks : List Block) (s : tokens.State) :
    Runs calm (ticketSequential v r blocks).afterEntry s (entered v r s) :=
  ⟨_, rfl, _, rfl, _, rfl, _, rfl, rfl⟩

theorem not_beginsStep_ticket {v r : String} {b : Block} {blocks : List Block} :
    ¬ (ticketSequential v r (b :: blocks)).BeginsStep b.label := by
  intro hx
  rcases hx with hh | ⟨c, hc, hl, m, rest, hr, hm⟩
  · have hnone : (ticketSequential v r (b :: blocks)).loop? b.label = none := by
      show ((ticketed.copies.source? ⟨"Main_1", b.label⟩).bind fun _ => none).filter _ = none
      rw [Option.bind_fun_none, Option.filter_none]
    have hs := (List.mem_filter.mp hh).2
    rw [hnone] at hs
    cases hs
  · exact label_notMem_of_head hc hr hm (hl ▸ List.mem_cons_self)

/-- From the entry an execution comes to the first block, if this does nothing. -/
theorem at_first {v r : String} {b c : Block} {blocks : List Block}
    (h : (ticketSequential v r (b :: blocks)).WellFormed)
    (hc : (ticketSequential v r (b :: blocks)).base.block? b.label = some c)
    (hn : c.commands = []) (s : tokens.State) (n : Int) :
    let q := ticketSequential v r (b :: blocks)
    let m := Function.update s x.name (tokens.int n)
    q.At calm q.implementation (q.outBlock c) ⟨m, .entry "Main", [ticket v]⟩ (entered v r m) := by
  intro q m
  have hentry : q.At calm q.implementation (q.initialBlock q.others)
      ⟨m, .entry "Main", [ticket v]⟩ (entered v r m) :=
    .entry (head?_blocks q) (commands_initialBlock q q.others) (runs_havoc_ticketed s n)
      (runs_afterEntry_ticket v r _ m)
  obtain ⟨hcm, hcl⟩ := Implementation.of_block? hc
  have hd := (Implementation.block?_eq_some_iff h.nodup_labels).mpr ⟨h.outBlock_mem hcm, hcl⟩
  have hi : b.label ≠ Label.initial := fun hi =>
    h.unreserved b.label List.mem_cons_self (by rw [hi]; decide)
  refine hentry.step ?_ hi not_beginsStep_ticket hd ?_
  · rw [Block.successors, h.initialBlock_transfer]
    exact List.mem_cons_self
  · rw [h.toAccepted.commands_of_not_beginsStep hc not_beginsStep_ticket hd, hn]
    exact runs_nil.mpr rfl

/-! ### A yield -/

def toYield : Block := { label := "A", transfer := .goto ["A_0"] }

def atYield : Block := { label := "A_0", commands := [.yield 1] }

/-- Nothing but a yield. -/
def pause : Block := { label := "A", commands := [.yield 1] }

def once : Sequential := ticketSequential "t" "r" [pause]

theorem exists_produces_once :
    ∃ out, once.Produces (ticketProgram "t" "r" [pause]) out once.implementation := by
  refine exists_produces_ticket rfl (Setting.checkConcurrent_of_reducible ?_ rfl)
  cbv

theorem blocks_base_once : once.base.blocks = [toYield, atYield] := by
  unfold Sequential.base
  cbv

theorem reserved_once : once.Reserved calm where
  body := by decide
  calls := by decide
  globals := by decide
  linear := by decide
  outputs _ := by decide

/-- Before the yield nothing but the flags changes. -/
theorem runs_beforeHavoc_once (inLoop : Bool) (s : tokens.State) :
    ∃ m, Runs calm (once.beforeHavoc inLoop []) s m ∧ ∀ y ∉ ["__pc", "__ok"], m y = s y := by
  cases inLoop with
  | true => exact ⟨s, rfl, fun _ _ => rfl⟩
  | false => exact ⟨_, ⟨_, rfl, rfl⟩, fun _ hy => setAll_of_notMem hy⟩

/-- What is stored after the yield, one after the other. -/
noncomputable def resumed (s : tokens.State) : tokens.State :=
  let copied := Function.update s "__snapshot_x" (s x.name)
  let saved := Function.update copied "__old_out_r" (copied "r")
  Function.update saved "__perm_tid" (saved "t")

theorem runs_afterHavoc_once (s : tokens.State) :
    Runs calm (once.afterHavoc 1 []) s (resumed s) :=
  ⟨s, ⟨truth_eq.mpr (.inr rfl), rfl⟩, _, rfl, _, rfl, _, rfl, rfl⟩

/-- Other threads change the counter from one to two at the yield. -/
theorem at_once (h : once.WellFormed) : ∃ m : tokens.State,
    m "t" = tokens.int 7 ∧ m x.name = tokens.int 2 ∧ m "r" = tokens.int 7 ∧
      once.At calm once.implementation (once.outBlock atYield)
        ⟨m, .command 1, once.scope⟩ (resumed m) := by
  have hbase : ∀ l, once.base.block? l = [toYield, atYield].find? (·.label == l) := fun l => by
    rw [Implementation.block?, blocks_base_once]
  have hat := at_first h (hbase "A") rfl initially 1
  have hd : once.implementation.block? "A_0" = some (once.outBlock atYield) :=
    (Implementation.block?_eq_some_iff h.nodup_labels).mpr
      ⟨h.outBlock_mem (Implementation.of_block? (hbase "A_0")).1, rfl⟩
  obtain ⟨m, hm, hkeep⟩ := runs_beforeHavoc_once (once.inLoops.contains "A_0")
    (entered "t" "r" (Function.update initially x.name (tokens.int 1)))
  refine ⟨Function.update m x.name (tokens.int 2), hkeep "t" (by decide), rfl,
    hkeep "r" (by decide), ?_⟩
  have hl : "A_0" ∈ (once.outBlock toYield).successors :=
    mem_successors_outBlock_iff.mpr (.inr ⟨by simp [toYield], .inl List.mem_cons_self⟩)
  exact hat.yield hl (hbase "A_0") rfl hd (h.toAccepted.commands_of_yield (hbase "A_0") rfl hd) hm
    (runs_havoc_ticketed m 2) (runs_afterHavoc_once _)

end Counter

/-- At the return, the dispatcher gets the permission that is available at the yield and the value
that other threads have given the counter there. -/
theorem Sequential.arguments_of_moment_once : ∃ out call, ∃ s : Counter.tokens.State,
    let q := Counter.once
    let c := q.outBlock Counter.atYield
    q.Produces (Counter.ticketProgram "t" "r" [Counter.pause]) out q.implementation ∧
    q.setting.copies.Faithful q.source ∧
    (∀ r ∈ (q.setting.preparedBlocks q.source).values, r.successors = []) ∧
    q.setting.trusted = false ∧ q.Reserved Counter.calm ∧
    q.implementation.Comes Counter.calm c s ∧ Label.noninterference ∈ c.successors ∧
    q.implementation.block? Label.noninterference =
      some (.sink Label.noninterference [.call call]) ∧
    call.ins.map (·.eval s Counter.calm.pre) = [Counter.tokens.int 7, Counter.tokens.int 2] ∧
    s "__old_out_r" = Counter.tokens.int 7 := by
  obtain ⟨out, h⟩ := Counter.exists_produces_once
  have hf := Counter.faithful_ticket (v := "t") (r := "r") (b := Counter.pause) rfl
  obtain ⟨m, ht, hx, hr, hat⟩ := Counter.at_once (h.wellFormed (by decide) hf)
  have hp : ∀ r ∈ (Counter.once.setting.preparedBlocks Counter.once.source).values,
      r.successors = [] := fun r hr => absurd hr List.not_mem_nil
  have hn : Label.noninterference ∈ (Counter.once.outBlock Counter.atYield).successors :=
    mem_successors_outBlock_iff.mpr (.inl ⟨rfl, by decide⟩)
  obtain ⟨-, -, call, hcall, -, -, -, hargs⟩ :=
    h.arguments_of_moment hf hp rfl Counter.reserved_once hat.comes hn
  obtain ⟨hins, houts⟩ := hargs _ hat
  refine ⟨out, call, _, h, hf, hp, rfl, Counter.reserved_once, hat.comes, hn, hcall, ?_, ?_⟩
  · rw [hins, ← ht, ← hx]
    rfl
  · rw [← hr]
    exact houts rfl (Counter.result "r") List.mem_cons_self

namespace Counter

open LayerCheck.Sequential

/-! ### Variables with the names of added ones -/

/-- A block that returns. -/
def done : Block := { label := "A" }

/-- The linear variable has the name of the copy of the counter, the output that of a flag. -/
def hidden : Sequential := ticketSequential "__snapshot_x" "__pc" [done]

theorem exists_produces_hidden : ∃ out,
    hidden.Produces (ticketProgram "__snapshot_x" "__pc" [done]) out hidden.implementation := by
  refine exists_produces_ticket rfl (Setting.checkConcurrent_of_reducible ?_ rfl)
  cbv

theorem blocks_base_hidden : hidden.base.blocks = [done] := by
  unfold Sequential.base
  cbv

end Counter

/-- A linear variable may have the name of the copy of a global, and an output that of a flag.
Nothing in the body writes them, but the copy and the flag are set under their names first: the
dispatcher does not get the permission that the variable carried, and the copy of the output is not
what the output was. -/
theorem Sequential.arguments_of_hidden : ∃ out call,
    let q := Counter.hidden
    let c := q.outBlock Counter.done
    let μ : Moment Counter.tokens :=
      ⟨Function.update Counter.initially "x" (Counter.tokens.int 1), .entry "Main",
        [Counter.ticket "__snapshot_x"]⟩
    let s := Counter.entered "__snapshot_x" "__pc" μ.state
    q.Produces (Counter.ticketProgram "__snapshot_x" "__pc" [Counter.done]) out
      q.implementation ∧
    q.setting.copies.Faithful q.source ∧
    (∀ r ∈ (q.setting.preparedBlocks q.source).values, r.successors = []) ∧
    q.setting.trusted = false ∧
    (∀ b ∈ q.source.blocks, ∀ c ∈ b.commands, ∀ v ∈ q.locals, v.name ∉ c.writes) ∧
    (∀ v ∈ q.locals, v.name ∉ Counter.calm.globals) ∧
    (∀ g ∈ q.globals, ∀ v ∈ q.locals, v.name ≠ g.name) ∧
    q.implementation.Comes Counter.calm c s ∧ q.At Counter.calm q.implementation c μ s ∧
    Label.noninterference ∈ c.successors ∧
    q.implementation.block? Label.noninterference =
      some (.sink Label.noninterference [.call call]) ∧
    call.ins.map (·.eval s Counter.calm.pre) = [Counter.tokens.int 1, Counter.tokens.int 1] ∧
    q.setting.permissions.domains.values.map (μ.permissions q.setting.permissions) ++
      q.globals.map (fun g => μ.state g.name) = [Counter.tokens.int 7, Counter.tokens.int 1] ∧
    (∀ o ∈ q.source.outputs, s ("__old_out_" ++ o.name) ≠ μ.state o.name) ∧
    Counter.tokens.int 1 ≠ Counter.tokens.int 7 := by
  obtain ⟨out, h⟩ := Counter.exists_produces_hidden
  have hf := Counter.faithful_ticket (v := "__snapshot_x") (r := "__pc") (b := Counter.done) rfl
  have hw := h.wellFormed (by decide) hf
  have hc : Counter.hidden.base.block? "A" = some Counter.done := by
    rw [Implementation.block?, Counter.blocks_base_hidden]
    rfl
  have hat := Counter.at_first hw hc rfl Counter.initially 1
  refine ⟨out, _, h, hf, fun r hr => absurd hr List.not_mem_nil, rfl, by decide, by decide,
    by decide, hat.comes, hat, mem_successors_outBlock_iff.mpr (.inl ⟨rfl, by decide⟩),
    hw.block?_noninterference, rfl, rfl, fun o ho => ?_, fun h => by cases h⟩
  rw [List.mem_singleton.mp ho]
  intro he
  cases he

end LayerCheck
