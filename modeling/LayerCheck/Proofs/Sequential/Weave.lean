import LayerCheck.Proofs.Aggregator
import LayerCheck.Proofs.Permission.Insertion
import LayerCheck.Proofs.Sequential.Body

/-!
# Instrumentation is woven into the commands

The sequential body runs the commands of the copy in their order: yields are dropped, a parallel
call is one call of its aggregator, and all else that runs in between is instrumentation.

* `Sequential.Instrumentation`: the commands that are added, spelled out by what they are for.
* `Sequential.Woven`: a list of commands with instrumentation in between.
* `Sequential.woven_outCommands`: a block of the base and what has become of it.
* `Sequential.woven_chain`: a block of the copy and what has become of its chain.
-/

namespace LayerCheck.Sequential

/-- The inputs of the procedure are read from those of the copy. -/
def inputsRead (q : Sequential) : Subst :=
  .ofFormals q.plan.procedure.inputs (q.source.inputs.map fun v => .var v.name)

/-- A command that the instrumentation adds. -/
inductive Instrumentation (q : Sequential) : Command → Prop
  /-- The permissions that variables of the copy, and linear globals, carry of a domain are
  disjoint. -/
  | disjointness {d : Domain} {vars : List Variable} (hd : d ∈ q.setting.permissions.domains.values)
    (hv : ∀ v ∈ vars, v.domain? = some d.name ∧ (v ∈ q.source.inputs ++ q.source.outputs ++
      q.source.locals ∨ v ∈ q.setting.facts.globals)) :
    Instrumentation q (.assume (.app (d.name ++ "_disjoint")
      (vars.map fun v => .app (d.name ++ "_collect") [.var v.name])))
  /-- What the procedure of the copy requires. -/
  | required {c : Clause} (hc : c ∈ q.plan.procedure.requires) :
    Instrumentation q (.assume (c.condition.subst q.inputsRead))
  /-- An invariant of the layer that holds on entry. -/
  | entered {call : Call} {i : YieldInvariant} {c : Clause} (hcall : call ∈ q.plan.yielding.requires)
    (hi : q.setting.facts.invariants.get? call.callee = some i) (hl : i.layer = q.layer)
    (hc : c ∈ i.requires) :
    Instrumentation q
      (.assume ((c.condition.subst (.ofFormals i.inputs (call.ins.map .old))).subst q.inputsRead))
  /-- The gate of the action. -/
  | gate {c : Command} (h : c ∈ q.gateAssumed) : Instrumentation q c
  /-- A local that has been added gets a value. -/
  | set {targets : List String} {values : List Expr} (h : targets ⊆ q.addedNames) :
    Instrumentation q (.assign targets values)
  /-- The action has not been performed yet, at a parallel call that performs it. -/
  | unperformed (message? : Option String) :
    Instrumentation q (.assert (.not (.var "__pc")) message?)
  /-- Other threads change the globals. -/
  | havoc : Instrumentation q (.havoc (q.setting.facts.globals.map Variable.name))
  /-- The globals count as modified in a yielding loop. -/
  | touch : Instrumentation q (.assign (q.setting.facts.globals.map Variable.name)
      (q.setting.facts.globals.map fun g => .var g.name))
  /-- An invariant of the layer that a yielding loop has. -/
  | invariant {header : String} {source : BlockRef} {loop : YieldingLoop} {call : Call}
    {i : YieldInvariant} {c : Clause} (hh : header ∈ q.headers)
    (hsource : q.setting.copies.blocks.get? ⟨q.name, header⟩ = some source)
    (hloop : q.setting.facts.loops.get? source = some loop) (hcall : call ∈ loop.invariants)
    (hi : q.setting.facts.invariants.get? call.callee = some i) (hl : i.layer = q.layer)
    (hc : c ∈ i.requires) :
    Instrumentation q (if c.free then .assume (c.condition.subst (.ofFormals i.inputs call.ins))
      else .assert (c.condition.subst (.ofFormals i.inputs call.ins)))
  /-- A predicate that follows a yield is assumed again once other threads have run. -/
  | again {b : Block} {pre rest : List Command} {id : CommandId} {d : Command} {e : Expr}
    (hb : b ∈ q.source.blocks) (hc : b.commands = pre ++ .yield id :: rest)
    (hd : d ∈ Command.leadingPredicates rest) (he : d.predicate? = some e) :
    Instrumentation q (.assume e)

/-- The second list runs the commands of the first in order, without its yields and with one call for
each parallel call, which passes what the components pass; all else is instrumentation. -/
inductive Woven (q : Sequential) : List Command → List Command → Prop
  | nil : Woven q [] []
  | keep {c : Command} {cs ds : List Command} (hc : c.isPreemption = false) (h : Woven q cs ds) :
    Woven q (c :: cs) (c :: ds)
  | yield {id : CommandId} {cs ds : List Command} (h : Woven q cs ds) : Woven q (.yield id :: cs) ds
  | par {p : ParCall} {call : Call} {cs ds : List Command} (hp : p.ReplacedBy call)
    (h : Woven q cs ds) : Woven q (.par p :: cs) (.call call :: ds)
  | added {d : Command} {cs ds : List Command} (hd : q.Instrumentation d) (h : Woven q cs ds) :
    Woven q cs (d :: ds)

variable {q : Sequential}

/-! ## What is added -/

namespace Instrumentation

variable {c : Command}

theorem of_setsLocals (h : q.SetsLocals c) : q.Instrumentation c := by
  obtain ⟨targets, values, rfl, hsub⟩ := h
  exact .set (q.map_name_locals ▸ hsub)

theorem of_mem_assumeGate (h : c ∈ q.refinement.assumeGate) : q.Instrumentation c :=
  .gate (q.assumeGate_eq ▸ h)

/-- The flags are set, and a marked parallel call is the first that performs the action. -/
theorem of_mem_account (h : c ∈ q.refinement.endStep ++ q.refinement.endMarkedStep) :
    q.Instrumentation c := by
  rcases List.mem_append.mp h with h | h
  · exact of_setsLocals (.of_mem_endStep h)
  · cases hr : q.refinement with
    | none =>
      rw [hr] at h
      exact absurd h List.not_mem_nil
    | some r =>
      rw [hr] at h
      rcases List.mem_cons.mp h with rfl | h
      · exact .unperformed _
      · obtain rfl := List.mem_singleton.mp h
        exact of_setsLocals (.setFlags hr _ _)

theorem of_mem_havocGlobals (h : c ∈ q.setting.havocGlobals) : q.Instrumentation c := by
  rw [Setting.havocGlobals_eq] at h
  split at h
  · exact absurd h List.not_mem_nil
  · obtain rfl := List.mem_singleton.mp h
    exact .havoc

theorem of_mem_touchGlobals (h : c ∈ q.touchGlobals) : q.Instrumentation c := by
  obtain rfl := Command.eq_of_mem_assignAll h
  exact .touch

theorem of_mem_assumeDisjoint {s : Site} {vars globals : List Variable} (hv : vars ⊆ q.scope)
    (hg : globals ⊆ q.globals) (h : c ∈ q.setting.permissions.assumeDisjoint s vars globals) :
    q.Instrumentation c := by
  rw [Permissions.assumeDisjoint_globals_eq] at h
  obtain ⟨d, hd, rfl⟩ := List.mem_map.mp h
  refine .disjointness (List.mem_of_mem_filter hd) fun v hvm => ?_
  rcases List.mem_append.mp hvm with hvm | hvm
  · obtain ⟨hmem, hdom⟩ := List.mem_filter.mp hvm
    exact ⟨(of_decide_eq_true hdom).1, .inl (hv hmem)⟩
  · obtain ⟨hmem, hdom⟩ := List.mem_filter.mp hvm
    exact ⟨of_decide_eq_true hdom, .inr (hg hmem)⟩

theorem of_precondition {cl : Clause}
    (h : cl ∈ q.plan.procedure.requires ++ q.setting.entryClauses q.layer q.plan) :
    q.Instrumentation (.assume (cl.condition.subst q.plan.inputSubst)) := by
  rcases List.mem_append.mp h with h | h
  · exact .required h
  · obtain ⟨call, hcall, i, hi, hl, d, hd, rfl⟩ := Setting.mem_activeClauses.mp h
    exact .entered hcall hi hl hd

theorem of_mem_loopInvariants {header : String} (hh : header ∈ q.headers)
    (h : c ∈ q.loopInvariants header) : q.Instrumentation c := by
  obtain ⟨cl, hcl, rfl⟩ := List.mem_map.mp h
  obtain ⟨loop, hl⟩ := Option.isSome_iff_exists.mp (List.mem_filter.mp hh).2
  rw [hl, Option.map_some, Option.getD_some] at hcl
  obtain ⟨source, hs, hloop, -⟩ := Copies.activeLoop?_eq_some_iff.mp hl
  obtain ⟨call, hcall, i, hi, hlayer, d, hd, rfl⟩ := Setting.mem_activeClauses.mp hcl
  rw [List.map_id]
  exact .invariant hh hs hloop hcall hi hlayer hd

end Instrumentation

namespace Woven

variable {cs cs' ds ds' : List Command}

theorem append (h : Woven q cs ds) (h' : Woven q cs' ds') : Woven q (cs ++ cs') (ds ++ ds') := by
  induction h with
  | nil => exact h'
  | keep hc _ ih => exact .keep hc ih
  | yield _ ih => exact .yield ih
  | par hp _ ih => exact .par hp ih
  | added hd _ ih => exact .added hd ih

theorem of_plain (h : Command.Plain cs) : Woven q cs cs := by
  induction cs with
  | nil => exact .nil
  | cons c cs ih =>
    exact .keep (h c List.mem_cons_self) (ih fun d hd => h d (List.mem_cons_of_mem _ hd))

theorem of_instrumentation (h : ∀ d ∈ ds, q.Instrumentation d) : Woven q [] ds := by
  induction ds with
  | nil => exact .nil
  | cons d ds ih =>
    exact .added (h d List.mem_cons_self) (ih fun e he => h e (List.mem_cons_of_mem _ he))

/-- Instrumentation may be put in front. -/
theorem prepend (h : Woven q cs ds) (hd : ∀ d ∈ ds', q.Instrumentation d) :
    Woven q cs (ds' ++ ds) :=
  (of_instrumentation hd).append h

theorem flatMap {α : Type} {l : List α} {f g : α → List Command}
    (h : ∀ a ∈ l, Woven q (f a) (g a)) : Woven q (l.flatMap f) (l.flatMap g) := by
  induction l with
  | nil => exact .nil
  | cons a l ih =>
    rw [List.flatMap_cons, List.flatMap_cons]
    exact (h a List.mem_cons_self).append (ih fun b hb => h b (List.mem_cons_of_mem _ hb))

end Woven

/-- The second list is the first with plain instrumentation in between. -/
inductive Padded (q : Sequential) : List Command → List Command → Prop
  | nil : Padded q [] []
  | keep {c : Command} {cs ds : List Command} (h : Padded q cs ds) : Padded q (c :: cs) (c :: ds)
  | added {d : Command} {cs ds : List Command} (hd : q.Instrumentation d)
    (hp : d.isPreemption = false) (h : Padded q cs ds) : Padded q cs (d :: ds)

namespace Padded

variable {cs ds es : List Command}

theorem prepend (h : Padded q cs ds)
    (he : ∀ d ∈ es, q.Instrumentation d ∧ d.isPreemption = false) : Padded q cs (es ++ ds) := by
  induction es with
  | nil => exact h
  | cons e es ih =>
    obtain ⟨hi, hp⟩ := he e List.mem_cons_self
    exact .added hi hp (ih fun d hd => he d (List.mem_cons_of_mem _ hd))

/-- What is woven into a padded list is woven into the list itself. -/
theorem woven (hp : Padded q cs ds) (h : Woven q ds es) : Woven q cs es := by
  induction h generalizing cs with
  | nil =>
    cases hp
    exact .nil
  | keep hc _ ih =>
    cases hp with
    | keep hp => exact .keep hc (ih hp)
    | added hd _ hp => exact .added hd (ih hp)
  | yield _ ih =>
    cases hp with
    | keep hp => exact .yield (ih hp)
    | added _ hn _ => simp [Command.isPreemption] at hn
  | par hr _ ih =>
    cases hp with
    | keep hp => exact .par hr (ih hp)
    | added _ hn _ => simp [Command.isPreemption] at hn
  | added hd _ ih => exact .added hd (ih hp)

end Padded

/-! ## Blocks of the base -/

theorem instrumentation_beginStep {s : Site} :
    ∀ d ∈ q.beginStep s, q.Instrumentation d := by
  intro d hd
  rcases List.mem_append.mp hd with hd | hd
  · exact .of_setsLocals (.of_mem_store hd)
  · exact .of_setsLocals (.of_mem_collect hd)

theorem woven_openLoop {b : Block} (hh : b.label ∈ q.headers) (hb : Command.Plain b.commands) :
    Woven q b.commands (q.openLoop b).commands := by
  have hp : Woven q (Command.leadingPredicates b.commands)
      (Command.leadingPredicates b.commands) := .of_plain (.leadingPredicates _)
  have hd : Woven q (b.commands.drop (Command.leadingPredicates b.commands).length)
      (b.commands.drop (Command.leadingPredicates b.commands).length) :=
    .of_plain fun c hc => hb c (List.mem_of_mem_drop hc)
  have hopen : (q.openLoop b).commands = Command.leadingPredicates b.commands ++
      ((q.refinement.assumeGate ++ q.loopInvariants b.label ++ q.touchGlobals ++
        q.beginStep (q.setting.copies.headSite q.name b.label)) ++
        b.commands.drop (Command.leadingPredicates b.commands).length) := by
    simp [openLoop]
  rw [hopen]
  conv => arg 2; rw [← Command.leadingPredicates_append_drop b.commands]
  refine hp.append (hd.prepend ?_)
  simp only [List.forall_mem_append]
  refine ⟨⟨⟨?_, ?_⟩, ?_⟩, instrumentation_beginStep⟩
  · exact fun _ => .of_mem_assumeGate
  · exact fun _ => .of_mem_loopInvariants hh
  · exact fun _ => .of_mem_touchGlobals

theorem woven_afterYield {inLoop : Bool} {id : CommandId} {rest : List Command}
    (hr : Command.Plain rest)
    (hagain : ∀ d ∈ Command.leadingPredicates rest, ∀ e, d.predicate? = some e →
      q.Instrumentation (.assume e)) :
    Woven q (.yield id :: rest) (q.afterYield inLoop id rest) := by
  have hp : Woven q (Command.leadingPredicates rest) (Command.leadingPredicates rest) :=
    .of_plain (.leadingPredicates _)
  have hd : Woven q (rest.drop (Command.leadingPredicates rest).length)
      (rest.drop (Command.leadingPredicates rest).length) :=
    .of_plain fun c hc => hr c (List.mem_of_mem_drop hc)
  have hafter : q.afterYield inLoop id rest = (if inLoop then [] else q.refinement.endStep) ++
      (Command.leadingPredicates rest ++ ((q.setting.havocGlobals ++ q.refinement.assumeGate ++
        q.setting.permissions.assumeDisjoint (.command id) q.scope q.globals ++
        q.beginStep (.command id) ++
        ((Command.leadingPredicates rest).filterMap Command.predicate?).map .assume) ++
        rest.drop (Command.leadingPredicates rest).length)) := by
    simp [afterYield]
  rw [hafter]
  refine .yield ?_
  conv => arg 2; rw [← Command.leadingPredicates_append_drop rest]
  refine (hp.append (hd.prepend ?_)).prepend fun d hd => ?_
  · simp only [List.forall_mem_append]
    refine ⟨⟨⟨⟨?_, ?_⟩, ?_⟩, instrumentation_beginStep⟩, fun d hd => ?_⟩
    · exact fun _ => .of_mem_havocGlobals
    · exact fun _ => .of_mem_assumeGate
    · exact fun _ => .of_mem_assumeDisjoint (List.Subset.refl _) (List.Subset.refl _)
    · obtain ⟨e, he, rfl⟩ := List.mem_map.mp hd
      obtain ⟨c, hc, hce⟩ := List.mem_filterMap.mp he
      exact hagain c hc e hce
  · split at hd
    · exact absurd hd List.not_mem_nil
    · exact .of_mem_account (List.mem_append_left _ hd)

theorem woven_afterParCall {inLoop : Bool} {p : ParCall} {rest : List Command}
    (hr : Command.Plain rest) : Woven q (.par p :: rest) (q.afterParCall inLoop p rest) := by
  have hafter : q.afterParCall inLoop p rest = (if inLoop then []
      else if p.isRefining then q.refinement.endMarkedStep else q.refinement.endStep) ++
      (.call p.aggregatorCall :: ((q.refinement.assumeGate ++ q.beginStep (.command p.id)) ++
        rest)) := by
    simp [afterParCall]
  rw [hafter]
  refine (Woven.par p.replacedBy_aggregatorCall
    ((Woven.of_plain hr).prepend fun d hd => ?_)).prepend fun d hd => ?_
  · rcases List.mem_append.mp hd with hd | hd
    · exact .of_mem_assumeGate hd
    · exact instrumentation_beginStep d hd
  · split at hd
    · exact absurd hd List.not_mem_nil
    · split at hd
      · exact .of_mem_account (List.mem_append_right _ hd)
      · exact .of_mem_account (List.mem_append_left _ hd)

/-- **A block of the base runs its commands and instrumentation.** -/
theorem woven_outCommands {b : Block}
    (hb : Command.Plain b.commands ∨ ∃ m rest, b.commands = m :: rest ∧ m.isPreemption = true ∧
      Command.Plain rest)
    (hagain : ∀ id rest, b.commands = .yield id :: rest →
      ∀ d ∈ Command.leadingPredicates rest, ∀ e, d.predicate? = some e →
        q.Instrumentation (.assume e)) :
    Woven q b.commands (q.outCommands b) := by
  rcases hb with hp | ⟨m, rest, hc, hm, hr⟩
  · rw [outCommands_of_plain hp, openCommands]
    split
    · exact woven_openLoop ‹_› hp
    · exact .of_plain hp
  · rw [outCommands, hc]
    cases m with
    | yield id => exact woven_afterYield hr (hagain id rest hc)
    | par p => exact woven_afterParCall hr
    | _ => simp [Command.isPreemption] at hm

/-! ## Blocks of the copy -/

theorem padded_assumeAfter (cs : List Command) : Padded q cs
    (cs.flatMap (q.setting.permissions.assumeAfter q.setting.yielding q.scope)) := by
  induction cs with
  | nil => exact .nil
  | cons c cs ih =>
    rw [List.flatMap_cons, Permissions.assumeAfter]
    refine .keep (ih.prepend fun d hd => ?_)
    cases hs : c.yieldSite? q.setting.yielding with
    | none => simp [hs] at hd
    | some s =>
      rw [hs] at hd
      exact ⟨.of_mem_assumeDisjoint (List.Subset.refl _) (List.nil_subset _) hd,
        Command.isPreemption_of_isPredicate
          (q.setting.permissions.isPredicate_of_mem_assumeDisjoint _ hd)⟩

theorem padded_assumedCommands (c : Block) : Padded q c.commands (q.assumedCommands c) := by
  refine (padded_assumeAfter c.commands).prepend fun d hd => ?_
  refine ⟨?_, Command.isPreemption_of_isPredicate
    (Implementation.isPredicate_of_mem_headAssumptions hd)⟩
  rw [Implementation.headAssumptions] at hd
  split at hd
  · exact .of_mem_assumeDisjoint (List.Subset.refl _) (List.nil_subset _) hd
  · exact absurd hd List.not_mem_nil

/-- **The chain of a block of the copy runs the commands of the block and instrumentation.** -/
theorem woven_chain {c : Block} (hc : c ∈ q.source.blocks) {s : Cut}
    (hs : s.Spells { c with commands := q.assumedCommands c }) :
    Woven q c.commands (s.chain.flatMap q.outCommands) := by
  refine (padded_assumedCommands c).woven ?_
  have hflat : q.assumedCommands c = s.chain.flatMap Block.commands := by
    rw [List.flatMap_def, hs.commands, Command.flatten_segments]
  rw [hflat]
  refine Woven.flatMap fun b hb => woven_outCommands ?_ ?_
  · have hseg : b.commands ∈ Command.segments (q.assumedCommands c) := by
      rw [← hs.commands]
      exact List.mem_map_of_mem hb
    rcases List.mem_cons.mp hseg with hseg | hseg
    · rw [hseg]
      exact .inl fun d hd => Command.isPreemption_of_mem_firstSegment hd
    · obtain ⟨-, m, rest, -, hm, hr⟩ := Command.of_mem_laterSegments hseg
      exact .inr ⟨m, _, hr, hm, fun d hd => Command.isPreemption_of_mem_firstSegment hd⟩
  · intro id rest hbc d hd e he
    obtain ⟨pre, rest', hcc, hr⟩ := exists_preemption_of_chain hs hb hbc rfl
    have hrest := (List.cons.inj hr).2
    rw [q.setting.permissions.assumeAfter_of_yieldSite?_eq_none _ _ rfl, List.tail_cons,
      List.nil_append] at hrest
    rw [hrest, Command.leadingPredicates_firstSegment,
      Command.leadingPredicates_flatMap_assumeAfter] at hd
    exact .again hc hcc hd he

/-- The commands of the initial block are all instrumentation. -/
theorem instrumentation_initialBlock (others : List Block) :
    ∀ d ∈ (q.initialBlock others).commands, q.Instrumentation d := by
  have hin : q.source.inputs ⊆ q.scope :=
    fun v hv => List.mem_append_left _ (List.mem_append_left _ hv)
  simp only [Sequential.initialBlock, Sequential.initialBlockFrom, Setting.preconditions,
    List.forall_mem_append]
  refine ⟨⟨⟨⟨⟨?_, ?_⟩, fun d hd => ?_⟩, ?_⟩, ?_⟩, ?_⟩
  · exact fun _ => .of_mem_havocGlobals
  · exact fun _ => .of_mem_assumeDisjoint hin (List.Subset.refl _)
  · obtain ⟨cl, hcl, rfl⟩ := List.mem_map.mp hd
    exact .of_precondition hcl
  · exact fun _ hd => .of_setsLocals (.of_mem_store (List.mem_append_left _ hd))
  · exact fun _ hd => .of_setsLocals (.of_mem_initial hd)
  · exact fun _ hd => .of_setsLocals (.of_mem_collect hd)

end LayerCheck.Sequential
