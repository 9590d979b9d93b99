import LayerCheck.Proofs.Sequential.Base
import LayerCheck.Sequential.Body
import Mathlib.Data.List.Induction
import Mathlib.Data.List.TakeWhile

/-!
# The blocks of the sequential body

The passes over the base change each of its blocks on its own.  A block keeps its label; its
commands are those of `Sequential.outCommands`, and to the targets of its jump some are added, those
of `Sequential.added`.

* `Sequential.SetsLocals`: the commands that only write what has been added.
* `Sequential.opened_eq`: opening the loops is one pass over the blocks.
* `Sequential.preemptions_opened`: it leaves the preemption points where they are.
* `Sequential.blocks_eq`: the blocks of the sequential body, one by one.
-/

namespace LayerCheck

namespace Sequential

variable {q : Sequential}

/-! ## Opening the loops -/

/-- The checks that a block jumps to because it jumps to heads of loops. -/
def headerChecks (q : Sequential) (b : Block) : List String :=
  (q.headers.filter (· ∈ b.successors)).flatMap fun _ =>
    [Label.noninterference, stepChecker (q.inLoops.contains b.label)]

/-- The commands of a block once the loops are opened. -/
def openCommands (q : Sequential) (b : Block) : List Command :=
  if b.label ∈ q.headers then (q.openLoop b).commands else b.commands

def openBlock (q : Sequential) (b : Block) : Block :=
  { label := b.label
    commands := q.openCommands b
    transfer := b.transfer.addAll (q.headerChecks b) }

@[simp] theorem commands_openBlock (q : Sequential) (b : Block) :
    (q.openBlock b).commands = q.openCommands b := rfl

@[simp] theorem transfer_openBlock (q : Sequential) (b : Block) :
    (q.openBlock b).transfer = b.transfer.addAll (q.headerChecks b) := rfl

theorem checkStep_eq (inLoop : Bool) (b : Block) :
    checkStep inLoop b = { b with
      transfer := b.transfer.addAll [Label.noninterference, stepChecker inLoop] } := rfl

@[simp] theorem label_checkStep (inLoop : Bool) (b : Block) :
    (checkStep inLoop b).label = b.label := rfl

@[simp] theorem label_openLoop (q : Sequential) (b : Block) :
    (q.openLoop b).label = b.label := rfl

/-- Entering a loop is one pass over the blocks. -/
theorem enterLoop_eq {g : FlowGraph} {inLoops : List String} {bs : List Block}
    (hn : (bs.map Block.label).Nodup) {header : String} (hp : (g.predecessors header).Nodup) :
    q.enterLoop g inLoops bs header = bs.map fun b =>
      { label := b.label
        commands := if b.label = header then (q.openLoop b).commands else b.commands
        transfer := if b.label ∈ g.predecessors header then
            b.transfer.addAll [Label.noninterference, stepChecker (inLoops.contains b.label)]
          else b.transfer } := by
  have hc := Block.foldl_modifyFirst hn hp (f := fun l => checkStep (inLoops.contains l))
    (fun _ _ => rfl)
  rw [enterLoop]
  simp only [hc]
  rw [Block.modifyFirst_eq_map, List.map_map]
  · apply List.map_congr_left
    intro b _
    simp only [Function.comp_apply]
    by_cases hb : b.label ∈ g.predecessors header
    · simp only [if_pos hb, checkStep_eq]
      split <;> rfl
    · simp only [if_neg hb]
      split <;> rfl
  · rw [List.map_map]
    convert hn using 1
    apply List.map_congr_left
    intro b _
    simp only [Function.comp_apply]
    split <;> rfl

/-- A block when the loops with the given heads are opened. -/
def openAt (q : Sequential) (hs : List String) (b : Block) : Block :=
  { label := b.label
    commands := if b.label ∈ hs then (q.openLoop b).commands else b.commands
    transfer := b.transfer.addAll ((hs.filter (· ∈ b.successors)).flatMap fun _ =>
      [Label.noninterference, stepChecker (q.inLoops.contains b.label)]) }

theorem foldl_enterLoop (hn : q.base.labels.Nodup) {hs : List String} (hh : hs.Nodup)
    (hl : ∀ h ∈ hs, h ∈ q.base.labels) :
    hs.foldl (q.enterLoop q.base.flow q.inLoops) q.base.blocks =
      q.base.blocks.map (q.openAt hs) := by
  induction hs using List.reverseRecOn with
  | nil =>
    rw [List.foldl_nil]
    exact (List.map_id _).symm
  | append_singleton hs h ih =>
    rw [List.nodup_append] at hh
    have hmap : (q.base.blocks.map (q.openAt hs)).map Block.label = q.base.labels :=
      Block.map_label_map (f := q.openAt hs) (fun _ => rfl) _
    rw [List.foldl_append, ih hh.1 fun m hm => hl m (List.mem_append_left _ hm), List.foldl_cons,
      List.foldl_nil, enterLoop_eq (hmap ▸ hn) (FlowGraph.nodup_predecessors hn h), List.map_map]
    apply List.map_congr_left
    intro b hb
    have hp : b.label ∈ q.base.flow.predecessors h ↔ h ∈ b.successors := by
      rw [FlowGraph.mem_predecessors_iff hn (hl h (List.mem_append_right _ (by simp))),
        Implementation.edge_iff hn hb]
    simp only [Function.comp_apply, openAt, Block.mk.injEq, true_and, hp]
    constructor
    · by_cases hbh : b.label = h
      · have hbs : b.label ∉ hs := fun hm => hh.2.2 _ hm _ (List.mem_singleton.mpr hbh) rfl
        rw [if_pos (List.mem_append_right _ (List.mem_singleton.mpr hbh))]
        refine (if_pos hbh).trans ?_
        simp only [openLoop, if_neg hbs]
      · simp [hbh]
    · by_cases hs : h ∈ b.successors
      · simp [hs, Transfer.addAll_append]
      · simp [hs]

theorem nodup_headers (hn : q.base.labels.Nodup) : q.headers.Nodup := hn.filter _

/-- **Opening the loops is one pass over the base.** -/
theorem opened_eq (hn : q.base.labels.Nodup) : q.opened = q.base.blocks.map q.openBlock :=
  foldl_enterLoop hn (nodup_headers hn) fun _ hh => (List.mem_filter.mp hh).1

/-! ## Preemption points -/

/-- The yields and parallel calls at the heads of blocks of the base. -/
def heads (q : Sequential) : Table String Command := preemptions q.base.blocks

end Sequential

theorem Command.eq_of_mem_assignAll {ts : List String} {vs : List Expr} {c : Command}
    (hc : c ∈ assignAll ts vs) : c = .assign ts vs := by
  rw [assignAll] at hc
  split at hc
  · exact absurd hc List.not_mem_nil
  · exact List.mem_singleton.mp hc

theorem Command.isPredicate_of_mem_assignAll {ts : List String} {vs : List Expr} {c : Command}
    (hc : c ∈ assignAll ts vs) : c.isPredicate = false := by
  rw [eq_of_mem_assignAll hc]
  rfl

theorem Setting.havocGlobals_eq (s : Setting) : s.havocGlobals =
    if s.facts.globals = [] then [] else [.havoc (s.facts.globals.map Variable.name)] := by
  cases hg : s.facts.globals with
  | nil => simp [havocGlobals, Facts.globalNames, Command.havocAll, hg]
  | cons g gs => simp [havocGlobals, Facts.globalNames, Command.havocAll, hg]

/-- No other thread can run at any of the commands. -/
def Command.Plain (cs : List Command) : Prop := ∀ c ∈ cs, c.isPreemption = false

namespace Command.Plain

variable {cs ds : List Command}

theorem nil : Plain [] := fun _ h => absurd h List.not_mem_nil

theorem cons {c : Command} (hc : c.isPreemption = false) (h : Plain cs) : Plain (c :: cs) := by
  intro d hd
  rcases List.mem_cons.mp hd with rfl | hd
  · exact hc
  · exact h d hd

theorem append (hc : Plain cs) (hd : Plain ds) : Plain (cs ++ ds) := by
  intro c h
  rcases List.mem_append.mp h with h | h
  · exact hc c h
  · exact hd c h

theorem of_isPredicate (h : ∀ c ∈ cs, c.isPredicate = true) : Plain cs :=
  fun c hc => isPreemption_of_isPredicate (h c hc)

theorem leadingPredicates (cs : List Command) : Plain (leadingPredicates cs) :=
  of_isPredicate fun _ hc => List.mem_takeWhile_imp hc

theorem assignAll (ts : List String) (vs : List Expr) : Plain (assignAll ts vs) := by
  rw [Command.assignAll]
  split
  · exact nil
  · exact cons rfl nil

theorem head? (h : Plain cs) : cs.head?.filter isPreemption = none := by
  cases cs with
  | nil => rfl
  | cons c cs => simp [h c List.mem_cons_self]

end Command.Plain

namespace Sequential

variable {q : Sequential}

theorem isPredicate_of_mem_assumeGate {c : Command} (hc : c ∈ q.refinement.assumeGate) :
    c.isPredicate = true := by
  cases hq : q.refinement with
  | none =>
    rw [hq] at hc
    exact absurd hc List.not_mem_nil
  | some r =>
    rw [hq] at hc
    rw [List.mem_singleton.mp hc]
    rfl

/-- The gate of the action of the copy, if it has one, until the action has been performed; formals
correspond by position. -/
def gateAssumed (q : Sequential) : List Command :=
  q.plan.action?.toList.map fun a => .assume (.or (.var "__pc") ((Expr.conj a.gate).subst (.ofList
    ((a.inputs.map Variable.name).zip (q.source.inputs.map Variable.expr) ++
      (a.outputs.map Variable.name).zip (q.source.outputs.map Variable.expr)))))

theorem assumeGate_eq (q : Sequential) : q.refinement.assumeGate = q.gateAssumed := by
  rw [gateAssumed, refinement]
  cases q.plan.action? with
  | none => rfl
  | some a =>
    have hformals : (Subst.ofFormals a.inputs (q.source.inputs.map Variable.expr)).insertAll
        ((a.outputs.map Variable.name).zip (q.source.outputs.map Variable.expr)) =
          .ofList ((a.inputs.map Variable.name).zip (q.source.inputs.map Variable.expr) ++
            (a.outputs.map Variable.name).zip (q.source.outputs.map Variable.expr)) :=
      List.foldl_append.symm
    rw [Option.toList_some, List.map_singleton, ← hformals]
    rfl

theorem isPredicate_of_mem_loopInvariants {l : String} {c : Command}
    (hc : c ∈ q.loopInvariants l) : c.isPredicate = true := by
  obtain ⟨cl, -, rfl⟩ := List.mem_map.mp hc
  rw [Clause.command]
  split <;> rfl

/-- The command does nothing but assign to locals that have been added. -/
def SetsLocals (q : Sequential) (c : Command) : Prop :=
  ∃ targets values, c = .assign targets values ∧ targets ⊆ q.locals.map Variable.name

namespace SetsLocals

variable {c : Command}

theorem isPredicate (h : q.SetsLocals c) : c.isPredicate = false := by
  obtain ⟨targets, values, rfl, -⟩ := h
  rfl

theorem of_mem_assignAll {vars : List Variable} {values : List Expr} (hv : vars ⊆ q.locals)
    (hc : c ∈ Command.assignAll (vars.map Variable.name) values) : q.SetsLocals c :=
  ⟨_, _, Command.eq_of_mem_assignAll hc, List.map_subset _ hv⟩

theorem of_mem_update (hc : c ∈ Snapshot.update q.globals) : q.SetsLocals c :=
  of_mem_assignAll (fun _ hv => List.mem_append_left _ (List.mem_append_left _ hv)) hc

theorem subset_locals {r : ActionRefinement} (hr : q.refinement = some r) :
    Refinement.locals (some r) ⊆ q.locals := fun _ hv =>
  List.mem_append_left _ (List.mem_append_right _ (hr ▸ hv))

theorem setFlags {r : ActionRefinement} (hr : q.refinement = some r) (pcValue okValue : Expr) :
    q.SetsLocals (ActionRefinement.setFlags pcValue okValue) := by
  have hflags : [ActionRefinement.pc, ActionRefinement.ok] ⊆ q.locals := fun v hv =>
    subset_locals hr (List.mem_append_left (r.outputs.map ActionRefinement.oldOutput) hv)
  exact ⟨_, _, rfl, List.map_subset _ hflags⟩

theorem of_mem_saveOutputs (hc : c ∈ q.refinement.saveOutputs) : q.SetsLocals c := by
  cases hr : q.refinement with
  | none =>
    rw [hr] at hc
    exact absurd hc List.not_mem_nil
  | some r =>
    rw [hr] at hc
    have hold : r.outputs.map ActionRefinement.oldOutput ⊆ q.locals := fun v hv =>
      subset_locals hr (List.mem_cons_of_mem _ (List.mem_cons_of_mem _ hv))
    exact of_mem_assignAll hold (by rwa [List.map_map])

theorem of_mem_initial (hc : c ∈ q.refinement.initial) : q.SetsLocals c := by
  have hs := of_mem_saveOutputs (q := q) (c := c)
  cases hr : q.refinement with
  | none =>
    rw [hr] at hc
    exact absurd hc List.not_mem_nil
  | some r =>
    rw [hr] at hc hs
    rcases List.mem_cons.mp hc with rfl | hc
    · exact setFlags hr _ _
    · exact hs hc

theorem of_mem_endStep (hc : c ∈ q.refinement.endStep) : q.SetsLocals c := by
  cases hr : q.refinement with
  | none =>
    rw [hr] at hc
    exact absurd hc List.not_mem_nil
  | some r =>
    rw [hr] at hc
    obtain rfl := List.mem_singleton.mp hc
    exact setFlags hr _ _

theorem of_mem_collect {s : Site} {vars : List Variable} (hc : c ∈ q.interference.collect s vars) :
    q.SetsLocals c := by
  cases hi : q.interference with
  | trusted =>
    rw [hi] at hc
    exact absurd hc List.not_mem_nil
  | checked t =>
    rw [hi] at hc
    refine of_mem_assignAll (fun v hv => ?_) hc
    exact List.mem_append_right _ (hi ▸ hv)

theorem of_mem_store (hc : c ∈ q.store) : q.SetsLocals c :=
  (List.mem_append.mp hc).elim of_mem_update of_mem_saveOutputs

theorem of_mem_beginStep {s : Site} (hc : c ∈ q.beginStep s) : q.SetsLocals c :=
  (List.mem_append.mp hc).elim of_mem_store of_mem_collect

end SetsLocals

/-- The names of the locals that are added: those of copies of the globals, those of the flags and of
copies of the outputs if an action is refined, and those of permissions if interference is checked. -/
def addedNames (q : Sequential) : List String :=
  (q.setting.facts.globals.map fun g => "__snapshot_" ++ g.name) ++
  (if q.plan.action?.isSome then
    "__pc" :: "__ok" :: q.source.outputs.map fun o => "__old_out_" ++ o.name else []) ++
  if q.setting.trusted then []
  else q.setting.permissions.domains.values.map fun d => "__perm_" ++ d.name

theorem map_name_locals (q : Sequential) : q.locals.map Variable.name = q.addedNames := by
  have hshadows : (Snapshot.shadows q.globals).map Variable.name =
      q.setting.facts.globals.map fun g => "__snapshot_" ++ g.name := List.map_map
  have hrefinement : (Refinement.locals q.refinement).map Variable.name =
      if q.plan.action?.isSome then
        "__pc" :: "__ok" :: q.source.outputs.map fun o => "__old_out_" ++ o.name else [] := by
    rw [refinement]
    cases q.plan.action? with
    | none => rfl
    | some a => exact congrArg (fun names => "__pc" :: "__ok" :: names) List.map_map
  have hinterference : q.interference.locals.map Variable.name =
      if q.setting.trusted then []
      else q.setting.permissions.domains.values.map fun d => "__perm_" ++ d.name := by
    rw [interference, Setting.interference, Setting.interferenceBy]
    split
    · rfl
    · exact List.map_map
  rw [locals, addedNames, List.map_append, List.map_append, hshadows, hrefinement, hinterference]

theorem isPredicate_of_mem_beginStep {s : Site} {c : Command}
    (hc : c ∈ q.touchGlobals ++ q.beginStep s) : c.isPredicate = false := by
  rcases List.mem_append.mp hc with hc | hc
  · exact Command.isPredicate_of_mem_assignAll hc
  · exact (SetsLocals.of_mem_beginStep hc).isPredicate

theorem plain_assumeGate (q : Sequential) : Command.Plain q.refinement.assumeGate := by
  cases q.refinement with
  | none => exact .nil
  | some r => exact .cons rfl .nil

theorem plain_store (q : Sequential) : Command.Plain q.store := by
  refine .append (.assignAll _ _) ?_
  cases q.refinement with
  | none => exact .nil
  | some r => exact .assignAll _ _

theorem plain_collect (q : Sequential) (s : Site) : Command.Plain (q.collect s) := by
  rw [collect]
  cases q.interference with
  | trusted => exact .nil
  | checked t => exact .assignAll _ _

theorem plain_loopInvariants (q : Sequential) (header : String) :
    Command.Plain (q.loopInvariants header) := by
  refine .of_isPredicate fun c hc => ?_
  obtain ⟨cl, -, rfl⟩ := List.mem_map.mp hc
  rw [Clause.command]
  split <;> rfl

theorem plain_openLoop {b : Block} (hb : Command.Plain b.commands) :
    Command.Plain (q.openLoop b).commands := by
  have hd : Command.Plain (b.commands.drop (Command.leadingPredicates b.commands).length) :=
    fun c hc => hb c (List.mem_of_mem_drop hc)
  exact (((((Command.Plain.leadingPredicates _).append q.plain_assumeGate).append
    (q.plain_loopInvariants _)).append (.assignAll _ _)).append
    (q.plain_store.append (q.plain_collect _))).append hd

theorem Accepted.plain_of_mem_headers (h : q.Accepted) {b : Block} (hb : b ∈ q.base.blocks)
    (hh : b.label ∈ q.headers) : Command.Plain b.commands := by
  rcases of_mem_commands_base hb with ⟨-, hp⟩ | ⟨hn, -⟩
  · exact hp
  · exact absurd (h.mem_labels_of_mem_headers hh) hn

namespace WellFormed

theorem preemption?_openBlock (h : q.WellFormed) {b : Block} (hb : b ∈ q.base.blocks) :
    (q.openBlock b).preemption? = b.preemption? := by
  show (q.openCommands b).head?.filter _ = b.commands.head?.filter _
  rw [openCommands]
  split
  · rename_i hh
    have hp := h.plain_of_mem_headers hb hh
    rw [hp.head?, (plain_openLoop hp).head?]
  · rfl

/-- **Opening the loops leaves the preemption points where they are.** -/
theorem preemptions_opened (h : q.WellFormed) : preemptions q.opened = q.heads := by
  rw [heads, preemptions, preemptions, opened_eq h.nodup_base, List.filterMap_map]
  congr 1
  apply List.filterMap_congr
  intro b hb
  rw [Function.comp_apply, h.preemption?_openBlock hb]
  rfl

theorem get?_heads_eq_some_iff (h : q.WellFormed) {l : String} {m : Command} :
    q.heads.get? l = some m ↔ ∃ b ∈ q.base.blocks, b.label = l ∧ b.preemption? = some m := by
  have hk : ((q.base.blocks.filterMap fun b => b.preemption?.map (b.label, ·)).map
      Prod.fst).Nodup := by
    refine List.Sublist.nodup ?_ h.nodup_base
    rw [Implementation.labels]
    generalize q.base.blocks = bs
    induction bs with
    | nil => exact .slnil
    | cons b bs ih =>
      rw [List.filterMap_cons]
      cases b.preemption? with
      | none => exact ih.cons _
      | some m => exact ih.cons_cons _
  rw [heads, preemptions, Table.get?_ofList_eq_some_iff hk, List.mem_filterMap]
  constructor
  · intro hx
    obtain ⟨b, hb, hm⟩ := hx
    obtain ⟨m', hm', he⟩ := Option.map_eq_some_iff.mp hm
    cases he
    exact ⟨b, hb, rfl, hm'⟩
  · intro hx
    obtain ⟨b, hb, rfl, hm⟩ := hx
    exact ⟨b, hb, by rw [hm]; rfl⟩

theorem get?_heads_eq_none (h : q.WellFormed) {l : String} (hl : l ∉ q.base.labels) :
    q.heads.get? l = none := by
  cases hg : q.heads.get? l with
  | none => rfl
  | some m =>
    obtain ⟨b, hb, rfl, -⟩ := h.get?_heads_eq_some_iff.mp hg
    exact absurd (Implementation.mem_labels.mpr ⟨b, hb, rfl⟩) hl

end WellFormed

/-! ## Branches and markers -/

/-- What a block jumps to beside the targets it had. -/
def added (q : Sequential) (b : Block) : List String :=
  let next := targets q.heads b
  q.headerChecks b ++ (next.flatMap q.components).map (·.block.label) ++
    if next.isEmpty then [] else [Label.noninterference, stepChecker (q.inLoops.contains b.label)]

/-- How a block of the sequential body ends. -/
def outTransfer (q : Sequential) (b : Block) : Transfer :=
  if b.transfer.isReturn then
    .goto [Label.returning, Label.unifiedReturn, Label.noninterference]
  else b.transfer.addAll (q.added b)

/-- The commands of a block of the sequential body. -/
def outCommands (q : Sequential) (b : Block) : List Command :=
  match b.commands with
  | .yield id :: rest => q.afterYield (q.inLoops.contains b.label) id rest
  | .par p :: rest => q.afterParCall (q.inLoops.contains b.label) p rest
  | _ => q.openCommands b

/-- The block of the sequential body that a block of the base has become. -/
def outBlock (q : Sequential) (b : Block) : Block :=
  { label := b.label, commands := q.outCommands b, transfer := q.outTransfer b }

theorem stepChecker_mem_reserved (inLoop : Bool) : stepChecker inLoop ∈ Label.reserved := by
  cases inLoop <;> decide

theorem mem_reserved_of_mem_headerChecks {b : Block} {l : String} (hl : l ∈ q.headerChecks b) :
    l ∈ Label.reserved := by
  obtain ⟨h, -, hl⟩ := List.mem_flatMap.mp hl
  rcases List.mem_cons.mp hl with rfl | hl
  · decide
  · rw [List.mem_singleton.mp hl]
    exact stepChecker_mem_reserved _

theorem headerChecks_of_ret {b : Block} (hb : b.transfer.isReturn = true) :
    q.headerChecks b = [] := by
  have hs : b.successors = [] := by
    rw [Block.successors]
    cases ht : b.transfer with
    | ret => rfl
    | goto ts => simp [ht, Transfer.isReturn] at hb
  simp [headerChecks, hs]

theorem targets_openBlock (h : q.WellFormed) (b : Block) :
    targets q.heads (q.openBlock b) = targets q.heads b := by
  refine Transfer.filterMap_addAll (fun l hl => h.get?_heads_eq_none fun hm => ?_) _
  exact (h.of_mem_labels_base hm).1 (mem_reserved_of_mem_headerChecks hl)

theorem foldl_addSuccessor (cs : List Component) (b : Block) :
    cs.foldl (fun b c => b.addSuccessor c.block.label) b =
      { b with transfer := b.transfer.addAll (cs.map (·.block.label)) } := by
  induction cs generalizing b with
  | nil => rfl
  | cons c cs ih =>
    rw [List.foldl_cons, ih]
    rfl

theorem branch_openBlock (h : q.WellFormed) (b : Block) :
    q.branch q.heads q.inLoops (q.openBlock b) =
      { label := b.label, commands := q.openCommands b, transfer := q.outTransfer b } := by
  rw [branch, outTransfer]
  cases hb : b.transfer.isReturn with
  | true =>
    have ht : (q.openBlock b).transfer.isReturn = true := by
      rw [transfer_openBlock, headerChecks_of_ret hb]
      exact hb
    rw [if_pos ht, if_pos rfl]
    rfl
  | false =>
    have ht : (q.openBlock b).transfer.isReturn = false := by
      rw [transfer_openBlock]
      exact Transfer.isReturn_addAll hb _
    rw [if_neg (by rw [ht]; decide)]
    simp only [targets_openBlock h, foldl_addSuccessor, added, Transfer.addAll_append]
    cases (targets q.heads b).isEmpty with
    | true => rfl
    | false => rfl

theorem replaceHead_of_plain (inLoops : List String) (l : String) {cs : List Command}
    (hcs : Command.Plain cs) (t : Transfer) :
    q.replaceHead inLoops { label := l, commands := cs, transfer := t } =
      { label := l, commands := cs, transfer := t } := by
  cases cs with
  | nil => rfl
  | cons c cs =>
    cases c with
    | yield id => exact absurd (hcs _ List.mem_cons_self) (by simp [Command.isPreemption])
    | par p => exact absurd (hcs _ List.mem_cons_self) (by simp [Command.isPreemption])
    | _ => rfl

theorem outCommands_of_plain {b : Block} (hb : Command.Plain b.commands) :
    q.outCommands b = q.openCommands b := by
  rw [outCommands]
  split
  · rename_i hc
    exact absurd (hb _ (hc ▸ List.mem_cons_self)) (by simp [Command.isPreemption])
  · rename_i hc
    exact absurd (hb _ (hc ▸ List.mem_cons_self)) (by simp [Command.isPreemption])
  · rfl

namespace WellFormed

/-- The head of a loop states the invariants of the loop. -/
theorem exists_loopInvariants (h : q.WellFormed) {b : Block} (hb : b ∈ q.base.blocks)
    (hh : b.label ∈ q.headers) :
    ∃ before behind, (q.outBlock b).commands = before ++ q.loopInvariants b.label ++ behind := by
  have hc : (q.outBlock b).commands = (q.openLoop b).commands := by
    rw [outBlock, outCommands_of_plain (h.plain_of_mem_headers hb hh), openCommands, if_pos hh]
  let predicates := Command.leadingPredicates b.commands
  refine ⟨predicates ++ q.refinement.assumeGate, q.touchGlobals ++
    (q.beginStep (q.setting.copies.headSite q.name b.label) ++
      b.commands.drop predicates.length), ?_⟩
  rw [hc, openLoop]
  simp only [predicates, List.append_assoc]

/-- The passes over the base make `outBlock` of each of its blocks. -/
theorem replaceHead_branch (h : q.WellFormed) {b : Block} (hb : b ∈ q.base.blocks) :
    q.replaceHead q.inLoops (q.branch q.heads q.inLoops (q.openBlock b)) = q.outBlock b := by
  rw [branch_openBlock h, outBlock]
  rcases of_mem_commands_base hb with ⟨-, hp⟩ | ⟨hn, m, rest, hc, hm, -⟩
  · have ho : Command.Plain (q.openCommands b) := by
      rw [openCommands]
      split
      · exact plain_openLoop hp
      · exact hp
    rw [replaceHead_of_plain q.inLoops b.label ho, outCommands_of_plain hp]
  · have ho : q.openCommands b = m :: rest := by
      rw [openCommands, if_neg fun hh => hn (h.mem_labels_of_mem_headers hh), hc]
    rw [outCommands, ho, hc]
    cases m with
    | yield id => rfl
    | par p => rfl
    | _ => simp [Command.isPreemption] at hm

/-- **The blocks of the sequential body.** -/
theorem others_eq (h : q.WellFormed) :
    q.others = q.base.blocks.map q.outBlock ++ q.checkers ++ q.spliced q.heads q.base.blocks := by
  have hs : q.spliced q.heads q.opened = q.spliced q.heads q.base.blocks := by
    rw [spliced, spliced, opened_eq h.nodup_base, List.flatMap_map]
    simp only [targets_openBlock h]
  have hb : q.opened.map (fun b => q.replaceHead q.inLoops (q.branch q.heads q.inLoops b)) =
      q.base.blocks.map q.outBlock := by
    rw [opened_eq h.nodup_base, List.map_map]
    exact List.map_congr_left fun b hb => h.replaceHead_branch hb
  rw [others]
  simp only [h.preemptions_opened, hs, hb]

theorem ne_nil_base (h : q.WellFormed) : q.base.blocks ≠ [] := by
  obtain ⟨b, hb⟩ := List.exists_mem_of_ne_nil _ h.nonempty
  have he : ∃ e, q.source.entryLabel? = some e := by
    cases hbs : q.source.blocks with
    | nil => exact absurd hbs h.nonempty
    | cons c cs => exact ⟨c.label, by simp [Implementation.entryLabel?, Implementation.labels, hbs]⟩
  obtain ⟨e, he⟩ := he
  have hm : e ∈ q.source.labels := List.mem_of_mem_head? he
  obtain ⟨c, hc, rfl⟩ := Implementation.mem_labels.mp hm
  obtain ⟨s, hs, hsc⟩ := h.exists_cut hc
  have hr : q.source.Reachable s.block.label := by
    rw [hsc.label]
    exact ⟨_, he, .refl⟩
  exact List.ne_nil_of_mem (h.mem_blocks_base_of_mem_chain hs hr List.mem_cons_self)

theorem entryLabel?_base (h : q.WellFormed) : q.base.entryLabel? = q.source.entryLabel? := by
  rw [q.base_eq, Implementation.entryLabel?_prune h.nodup_split,
    Implementation.entryLabel?_split, q.entryLabel?_assumed]

/-- The initial block jumps to the entry of the copy. -/
theorem initialBlock_transfer (h : q.WellFormed) :
    (q.initialBlock q.others).transfer = .goto q.source.entryLabel?.toList := by
  rw [← h.entryLabel?_base, initialBlock, initialBlockFrom, h.others_eq]
  cases hb : q.base.blocks with
  | nil => exact absurd hb h.ne_nil_base
  | cons b bs => simp [Implementation.entryLabel?, Implementation.labels, hb, outBlock]

theorem blocks_eq (h : q.WellFormed) :
    q.blocks = q.initialBlock q.others ::
      (q.base.blocks.map q.outBlock ++ q.checkers ++ q.spliced q.heads q.base.blocks) := by
  rw [← h.others_eq]
  rfl

end WellFormed

end Sequential

end LayerCheck
