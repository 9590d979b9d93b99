import LayerCheck.Proofs.Frame
import LayerCheck.Proofs.Interference.Coverage
import LayerCheck.Proofs.Permission.Insertion
import LayerCheck.Proofs.Sequential.Spliced

/-!
# What is assumed after a yield is checked

The predicates that a yield of the copy relies on are those that the sequential body assumes behind
it, and those that the checker of the copy restates: the body and the checker find the same ones,
although one is made after the copy has been rewritten and the other before.

* `Block.Relies`: the predicates behind a yield.
* `Sequential.YieldKept`: what has become of a yield.
* `Setting.Covers`: the checker of a subject is declared and called.
* `Sequential.Produces.yields_covered`: all that is assumed is checked.
-/

namespace LayerCheck

/-! ## Predicates behind a yield -/

/-- A command that does nothing but state a condition, which it assumes or asserts. -/
inductive Command.States : Command → Expr → Prop
  | assume (e : Expr) : States (.assume e) e
  | assert (e : Expr) (message? : Option String) : States (.assert e message?) e

/-- Behind a yield of the block stand predicates with these conditions, and no more predicates behind
them. -/
structure Block.Relies (b : Block) (pre : List Command) (id : CommandId)
    (predicates : List Command) (conditions : List Expr) (rest : List Command) : Prop where
  commands : b.commands = pre ++ .yield id :: (predicates ++ rest)
  stated : List.Forall₂ Command.States predicates conditions
  last : ∀ c ∈ rest.head?, ∀ e, ¬ c.States e

/-- The clauses as predicates: a free clause is assumed, any other is asserted. -/
def Clause.Stated (cs : List Clause) (predicates : List Command) (conditions : List Expr) : Prop :=
  predicates = cs.map (fun c => if c.free then .assume c.condition else .assert c.condition) ∧
    conditions = cs.map Clause.condition

namespace Command

variable {predicates rest : List Command} {conditions : List Expr}

theorem states_iff {c : Command} {e : Expr} : c.States e ↔ c.predicate? = some e := by
  constructor
  · intro h
    cases h <;> rfl
  · intro h
    cases c with
    | assume d =>
      cases h
      exact .assume _
    | assert d message? =>
      cases h
      exact .assert _ _
    | _ => cases h

theorem isPredicate_iff {c : Command} : c.isPredicate = true ↔ ∃ e, c.States e := by
  simp only [isPredicate, Option.isSome_iff_exists, states_iff]

theorem filterMap_predicate? (h : List.Forall₂ States predicates conditions) :
    predicates.filterMap predicate? = conditions := by
  induction h with
  | nil => rfl
  | cons hc _ ih => rw [List.filterMap_cons_some (states_iff.mp hc), ih]

/-- Predicates that no other one follows are the leading ones. -/
theorem leadingPredicates_eq (h : List.Forall₂ States predicates conditions)
    (hr : ∀ c ∈ rest.head?, ∀ e, ¬ c.States e) :
    leadingPredicates (predicates ++ rest) = predicates := by
  refine leadingPredicates_append (fun c hc => ?_) fun c hc => ?_
  · obtain ⟨e, -, he⟩ := h.exists_of_mem_left hc
    exact isPredicate_iff.mpr ⟨e, he⟩
  · rw [← Bool.not_eq_true, isPredicate_iff]
    exact fun hx => hx.elim (hr c hc)

end Command

theorem Clause.Stated.eq {cs : List Clause} {predicates : List Command} {conditions : List Expr}
    (h : Stated cs predicates conditions) :
    predicates = cs.map command ∧ predicates.filterMap Command.predicate? = conditions := by
  obtain ⟨rfl, rfl⟩ := h
  refine ⟨rfl, ?_⟩
  rw [List.filterMap_map, ← List.filterMap_eq_map]
  refine List.filterMap_congr fun c _ => ?_
  cases hc : c.free <;> simp [hc, Command.predicate?]

/-! ## Checks of predicates -/

/-- That what is passed in for a domain is disjoint from what the variables carry, if any of them
carries permissions of the domain. -/
def Permissions.assumptionsAgainst (p : Permissions) (vars : List Variable) : List Command :=
  (p.domains.values.filter fun d => vars.any fun v => v.domain? = some d.name).map fun d =>
    .assume (.app (d.name ++ "_disjoint") (.var ("__linear_" ++ d.name ++ "_in") ::
      (vars.filter fun v => v.domain? = some d.name).map fun v =>
        .app (d.name ++ "_collect") [.var v.name]))

theorem Permissions.assumptionsAgainst_eq (p : Permissions) (vars : List Variable) :
    (p.domains.values.filterMap fun d => d.disjointWith? d.formal vars).map Command.assume =
      p.assumptionsAgainst vars := by
  rw [assumptionsAgainst, List.map_filterMap]
  induction p.domains.values with
  | nil => rfl
  | cons d ds ih =>
    have hlen : (d.formal.expr :: d.held vars).length < 2 ↔
        ¬ (vars.any fun v => v.domain? = some d.name) = true := by
      rw [List.length_cons, Domain.held, List.length_map, Nat.succ_lt_succ_iff, Nat.lt_one_iff,
        List.length_eq_zero_iff, List.filter_eq_nil_iff, List.any_eq_true]
      simp
    rw [List.filterMap_cons, ih, Domain.disjointWith?, Domain.disjoint?]
    by_cases hd : (vars.any fun v => v.domain? = some d.name) = true
    · rw [if_neg (fun h => hlen.mp h hd), List.filter_cons_of_pos (by exact hd), List.map_cons]
      rfl
    · rw [if_pos (hlen.mpr hd), List.filter_cons_of_neg (by exact hd)]
      rfl

namespace Setting

/-- Reads every global as it was. -/
def readsOld (s : Setting) : Subst :=
  .ofList (s.facts.globals.map fun g => (g.name, .var ("__old_" ++ g.name)))

/-- The implementation checks predicates that are relied on together by a subject with these
variables: its entry jumps to a block which assumes all of them as they were, and asserts those that
are asserted as they are now. -/
structure Restates (s : Setting) (i : Implementation) (vars : List Variable)
    (yields : List Command → List Expr → Prop) : Prop where
  inputs : i.inputs = s.checkFormals
  locals : i.locals = vars
  labels : i.labels.Nodup
  blocks : ∀ predicates conditions, yields predicates conditions → predicates ≠ [] → ∃ entry b,
    i.blocks.head? = some entry ∧ entry.commands = [] ∧ b ∈ i.blocks ∧
    b.label ∈ entry.successors ∧ b.commands =
      (conditions.map fun e => .assume (e.substOld s.readsOld s.readsOld)) ++
      s.permissions.assumptionsAgainst vars ++
      ((predicates.filterMap Command.asserted?).map fun e =>
        .assert (e.substOld ∅ s.readsOld) (some "Non-interference check failed")) ++
      [.assume (.bool false)]

/-- Of the blocks to which the entry of the dispatcher jumps, `n` call the procedure.  Each of them
passes the formals on as they are, and returns. -/
structure Dispatches (s : Setting) (d : Implementation) (name : String) (n : Nat) : Prop where
  inputs : d.inputs = s.checkFormals
  labels : d.labels.Nodup
  branches : ∃ entry branches, d.blocks = entry :: branches ∧ entry.commands = [] ∧
    entry.transfer = .goto (branches.map Block.label) ∧
    (branches.filter (·.calls name)).length = n ∧
    ∀ b ∈ branches, b.calls name = true → ∃ c : Call, b.commands = [.call c] ∧
      c.callee = name ∧ c.ins = s.checkFormals.map (fun v => .var v.name) ∧ c.outs = [] ∧
      b.transfer = .ret

/-- The checker of the name is declared and restates what is relied on, and `n` branches of the
dispatcher call it. -/
structure Covers (s : Setting) (out : LayerOutput) (d : Implementation) (name : String)
    (vars : List Variable) (yields : List Command → List Expr → Prop) (n : Nat) : Prop where
  procedure : ∃ r, .procedure r ∈ out.declarations ∧ r.name = name ∧ r.inputs = s.checkFormals
  implementation : ∃ i, .implementation i ∈ out.declarations ∧ i.name = name ∧
    i.procedure = name ∧ s.Restates i vars yields
  called : s.Dispatches d name n

variable {s : Setting} {l : Layer}

theorem restates_checker {t : Subject} {yields : List Command → List Expr → Prop}
    (hy : ∀ predicates conditions, yields predicates conditions →
      predicates ∈ t.yields ∧ predicates.filterMap Command.predicate? = conditions) :
    s.Restates (s.checker t).implementation t.vars yields where
  inputs := rfl
  locals := rfl
  labels := Checker.nodup_labels s.permissions s.globals t
  blocks predicates conditions h hne := by
    obtain ⟨hm, rfl⟩ := hy _ _ h
    obtain ⟨entry, b, he, hb, hl, hc⟩ := Checker.exists_sink hm hne
    refine ⟨entry, b, he, ?_, hb, hl, ?_⟩
    · obtain rfl := Option.some_inj.mp he
      rfl
    · rw [hc, Checker.commands_eq, s.permissions.assumptionsAgainst_eq]
      rfl

/-- **A dispatcher that calls any checkers at all.** -/
theorem dispatches_dispatcher {names : List String} (hne : names ≠ []) (name : String) :
    s.Dispatches (Dispatcher.implementation (s.dispatcher l) names) name (names.count name) where
  inputs := rfl
  labels := Dispatcher.nodup_labels _ _
  branches := by
    refine ⟨_, _, rfl, rfl, ?_, Dispatcher.length_filter_calls _ names 0 name, fun b hb hcall => ?_⟩
    · refine if_neg ?_
      simpa using hne
    · obtain ⟨⟨checker, n⟩, -, rfl⟩ := List.mem_map.mp hb
      have hname : checker = name := by simpa [Dispatcher.branch, Block.calls] using hcall
      exact ⟨_, rfl, hname, List.map_congr_left fun _ _ => rfl, rfl, rfl⟩

theorem covers_of_mem (ht : s.trusted = false) {plans : List Plan}
    (contracts : Table String Procedure) {t : Subject} (hs : t ∈ s.layerSubjects l plans)
    {yields : List Command → List Expr → Prop}
    (hy : ∀ predicates conditions, yields predicates conditions →
      predicates ∈ t.yields ∧ predicates.filterMap Command.predicate? = conditions) :
    s.Covers (s.output l plans contracts) (Dispatcher.implementation (s.dispatcher l)
        ((s.layerSubjects l plans).map Subject.checkerName)) t.checkerName t.vars yields
      (((s.layerSubjects l plans).map Subject.checkerName).count t.checkerName) where
  procedure := ⟨_, (mem_output_of_subject ht contracts hs).1, rfl, rfl⟩
  implementation := ⟨_, (mem_output_of_subject ht contracts hs).2, rfl, rfl, restates_checker hy⟩
  called := dispatches_dispatcher (List.ne_nil_of_mem (List.mem_map_of_mem hs)) _

end Setting

namespace Sequential

/-- What has become in `j` of the yield `id` of the block `b`, with the commands `pre` before it and
predicates of these conditions behind it: a block that runs the predicates, then gives the globals
new values, and then assumes the conditions and no other ones.  What comes in between only sets
locals that have been added, and assumes the gate of the action and that permissions are disjoint. -/
def YieldKept (q : Sequential) (j : Implementation) (b : Block) (pre : List Command)
    (id : CommandId) (predicates : List Command) (conditions : List Expr) : Prop :=
  ∃ c ∈ j.blocks, ∃ first store tail : List Command,
    (q.assumed.chainLabels q.preparedLabels b.label)[pre.countP Command.isPreemption + 1]? =
      some c.label ∧
    c.commands = first ++ predicates ++
      (if q.setting.facts.globals = [] then []
        else [.havoc (q.setting.facts.globals.map Variable.name)]) ++
      q.gateAssumed ++
      q.setting.permissions.assumptionsWithGlobals
        (q.source.inputs ++ q.source.outputs ++ q.source.locals) q.setting.facts.globals
        (.command id) ++
      store ++ conditions.map .assume ++ tail ∧
    first = (if q.inLoops.contains c.label then [] else q.refinement.endStep) ∧
    store = q.beginStep (.command id) ∧
    (∀ d ∈ first ++ store, ∃ targets values, d = .assign targets values ∧
      targets ⊆ (j.locals.drop q.source.locals.length).map Variable.name) ∧
    ∀ d ∈ tail.head?, ∀ e, ¬ d.States e

variable {q : Sequential}

/-- A yield of the copy heads a block of the base, which runs what follows it up to the next
preemption point. -/
theorem WellFormed.exists_base_of_yield (h : q.WellFormed) {b : Block} (hb : b ∈ q.source.blocks)
    (hr : q.source.Reachable b.label) {pre rest : List Command} {id : CommandId}
    (hc : b.commands = pre ++ .yield id :: rest) :
    ∃ y ∈ q.base.blocks,
      (q.assumed.chainLabels q.preparedLabels b.label)[pre.countP Command.isPreemption + 1]? =
        some y.label ∧
      y.commands = .yield id :: Command.firstSegment
        (rest.flatMap (q.setting.permissions.assumeAfter q.setting.yielding q.scope)) := by
  obtain ⟨s, hs, hsb⟩ := h.exists_cut hb
  have hlabel : s.block.label = b.label := hsb.label
  let after := q.setting.permissions.assumeAfter q.setting.yielding q.scope
  let heads := q.source.headAssumptions q.setting.permissions q.setting.copies q.setting.yielding
    b.label
  have hassumed : q.assumedCommands b =
      (heads ++ pre.flatMap after) ++ .yield id :: rest.flatMap after := by
    show heads ++ b.commands.flatMap after = _
    rw [hc, List.flatMap_append, List.flatMap_cons, List.append_assoc]
    rfl
  have hcount : (heads ++ pre.flatMap after).countP Command.isPreemption =
      pre.countP Command.isPreemption := by
    rw [List.countP_append, Command.countP_isPreemption_flatMap,
      Command.countP_isPreemption_eq_zero fun c hc =>
        Implementation.isPredicate_of_mem_headAssumptions hc, Nat.zero_add]
  -- The segment of the yield, and the block of the chain that runs it.
  have hseg := Command.getElem?_laterSegments (m := .yield id) rfl (heads ++ pre.flatMap after)
    (rest.flatMap after)
  rw [hcount, ← hassumed] at hseg
  have hchain : (s.chain.map Block.commands)[pre.countP Command.isPreemption + 1]? =
      some (.yield id :: Command.firstSegment (rest.flatMap after)) := by
    rw [hsb.commands, Command.segments, List.getElem?_cons_succ]
    exact hseg
  rw [List.getElem?_map, Option.map_eq_some_iff] at hchain
  obtain ⟨y, hy, hyc⟩ := hchain
  refine ⟨y, h.mem_blocks_base_of_mem_chain hs (hlabel ▸ hr) (List.mem_of_getElem? hy), ?_, hyc⟩
  rw [← hlabel, Implementation.chainLabels_of_mem h.nodup_assumed hs, List.getElem?_map, hy]
  rfl

theorem WellFormed.yieldKept (h : q.WellFormed) {b : Block} (hb : b ∈ q.source.blocks)
    (hr : q.source.Reachable b.label) {pre predicates behind : List Command} {id : CommandId}
    {conditions : List Expr} (hy : b.Relies pre id predicates conditions behind) :
    q.YieldKept q.implementation b pre id predicates conditions := by
  have hleading := Command.leadingPredicates_eq hy.stated hy.last
  have hconditions := Command.filterMap_predicate? hy.stated
  obtain ⟨y, hbase, hlabel, hyc⟩ := h.exists_base_of_yield hb hr hy.commands
  generalize predicates ++ behind = rest at hleading hyc
  have hpred : Command.leadingPredicates (Command.firstSegment (rest.flatMap
      (q.setting.permissions.assumeAfter q.setting.yielding q.scope))) =
      Command.leadingPredicates rest := by
    rw [Command.leadingPredicates_firstSegment, Command.leadingPredicates_flatMap_assumeAfter]
  refine ⟨q.outBlock y, h.outBlock_mem hbase, _, q.beginStep (.command id),
    (Command.firstSegment (rest.flatMap (q.setting.permissions.assumeAfter q.setting.yielding
      q.scope))).drop predicates.length, hlabel, ?_, rfl, rfl, ?_, ?_⟩
  · show q.outCommands y = _
    rw [← q.assumeGate_eq, ← Permissions.assumeDisjoint_globals_eq, ← Setting.havocGlobals_eq,
      ← hconditions, ← hleading, ← hpred, outCommands, hyc]
    rfl
  · have hlocals : q.implementation.locals.drop q.source.locals.length = q.locals :=
      List.drop_left
    rw [hlocals]
    intro d hd
    rcases List.mem_append.mp hd with hd | hd
    · split at hd
      · exact absurd hd List.not_mem_nil
      · exact SetsLocals.of_mem_endStep hd
    · exact SetsLocals.of_mem_beginStep hd
  · intro d hd e he
    rw [← hleading, ← hpred] at hd
    have hn := Command.isPredicate_head?_drop _ d hd
    rw [Command.isPredicate_iff.mpr ⟨e, he⟩] at hn
    cases hn

/-- The check of interference of the body runs the dispatcher of the layer. -/
theorem WellFormed.exists_dispatch (h : q.WellFormed) (ht : q.setting.trusted = false) :
    ∃ c ∈ q.implementation.blocks, c.label = Label.noninterference ∧ ∃ call : Call,
      c.commands = [.call call, .assume (.bool false)] ∧
      call.callee = "NoninterferenceDispatcher_" ++ toString q.layer ∧
      call.ins = (q.setting.permissions.domains.values.map fun d => .var ("__perm_" ++ d.name)) ++
        q.setting.facts.globals.map fun g => .var ("__snapshot_" ++ g.name) := by
  refine ⟨.sink Label.noninterference q.interference.dispatch,
    h.checkers_mem (by simp [checkers]), rfl, ?_⟩
  rw [interference_eq ht]
  refine ⟨_, rfl, rfl, ?_⟩
  simp only [Tracker.collectors, Snapshot.shadows, List.map_append, List.map_map]
  rfl

/-- The predicates behind a yield of the copy make up one yield of the copy. -/
theorem mem_yields_of_relies {i : Implementation} {b : Block} (hb : b ∈ i.blocks)
    {pre predicates rest : List Command} {id : CommandId} {conditions : List Expr}
    (hy : b.Relies pre id predicates conditions rest) :
    predicates ∈ (Subject.implementation i).yields ∧
      predicates.filterMap Command.predicate? = conditions := by
  refine ⟨List.mem_flatMap.mpr ⟨b, hb, ?_⟩, Command.filterMap_predicate? hy.stated⟩
  have hm := Command.mem_yieldPredicates pre (predicates ++ rest) id
  rwa [← hy.commands, Command.leadingPredicates_eq hy.stated hy.last] at hm

/-- **No predicate of a yield is assumed without being checked.**  Behind every reachable yield the
body assumes the predicates that follow it in the copy, after it has run them itself.  The checker
of the copy restates them, one branch of the dispatcher calls it, and the body runs the dispatcher.
The same holds of the invariants of the layer and of the contract of the copy, before the layer
strengthens it; a contract has one branch for each copy that implements it. -/
theorem Produces.yields_covered {p : Program} {out : Program × LayerOutput} {j : Implementation}
    (h : q.Produces p out j) (hn : q.source.labels.Nodup)
    (hf : q.setting.copies.Faithful q.source)
    (ht : q.setting.trusted = false) :
    (∀ b ∈ q.source.blocks, q.source.Reachable b.label → ∀ pre id predicates conditions rest,
      b.Relies pre id predicates conditions rest →
        q.YieldKept j b pre id predicates conditions) ∧
    ∃ d, .implementation d ∈ out.2.declarations ∧
      d.name = "NoninterferenceDispatcher_" ++ toString q.layer ∧
      (∃ c ∈ j.blocks, c.label = Label.noninterference ∧ ∃ call : Call,
        c.commands = [.call call, .assume (.bool false)] ∧ call.callee = d.name ∧
        call.ins = (q.setting.permissions.domains.values.map fun d => .var ("__perm_" ++ d.name)) ++
          q.setting.facts.globals.map fun g => .var ("__snapshot_" ++ g.name)) ∧
      q.setting.Covers out.2 d ("NoninterferenceChecker_impl_" ++ q.source.name)
        (q.source.inputs ++ q.source.outputs ++ q.source.locals)
        (fun predicates conditions => ∃ b ∈ q.source.blocks, ∃ pre id rest,
          b.Relies pre id predicates conditions rest) 1 ∧
      (∀ i ∈ q.setting.facts.invariants.values, i.layer = q.layer →
        q.setting.Covers out.2 d ("NoninterferenceChecker_invariant_" ++ i.name) i.inputs
          (Clause.Stated i.requires) 1) ∧
      ∃ r plans, p.procedures.get? q.source.procedure = some r ∧
        q.setting.plan q.layer p = .ok plans ∧
        q.setting.Covers out.2 d ("NoninterferenceChecker_proc_" ++ r.name) (r.inputs ++ r.outputs)
          (fun predicates conditions => Clause.Stated r.requires predicates conditions ∨
            Clause.Stated r.ensures predicates conditions)
          ((Setting.concurrent q.layer plans).countP fun c => c.procedure.name == r.name) := by
  have hw := h.wellFormed hn hf
  obtain ⟨plans, hp, hm⟩ := h.planned
  obtain ⟨name, origin, hplanned⟩ := h.exists_planned
  rw [h.eq_implementation, h.out_eq hp]
  refine ⟨fun b hb hr pre id predicates conditions rest => hw.yieldKept hb hr, _,
    Setting.mem_output_dispatcher ht plans _, rfl, hw.exists_dispatch ht, ?_, ?_, ?_⟩
  · have hs : Subject.implementation q.source ∈ q.setting.layerSubjects q.layer plans :=
      List.mem_append_right _ (List.mem_flatMap.mpr ⟨q.plan, hm, List.mem_cons_self⟩)
    rw [← Setting.count_implementation (Setting.nodup_names hp) hm]
    refine Setting.covers_of_mem ht _ hs fun predicates conditions hy => ?_
    obtain ⟨b, hb, pre, id, rest, hy⟩ := hy
    exact mem_yields_of_relies hb hy
  · intro i hi hl
    have hactive : i ∈ q.setting.facts.activeInvariants q.layer :=
      List.mem_filter.mpr ⟨hi, beq_iff_eq.mpr hl⟩
    have hs : Subject.invariant i ∈ q.setting.layerSubjects q.layer plans :=
      List.mem_append_left _ (List.mem_map_of_mem hactive)
    rw [← Setting.count_invariant plans hactive]
    refine Setting.covers_of_mem ht _ hs fun predicates conditions hy => ?_
    exact ⟨List.mem_singleton.mpr hy.eq.1, hy.eq.2⟩
  · have hs : Subject.procedure q.plan.procedure ∈ q.setting.layerSubjects q.layer plans := by
      refine List.mem_append_right _ (List.mem_flatMap.mpr ⟨q.plan, hm, ?_⟩)
      rw [Setting.subjects, if_neg (by rw [h.concurrent]; decide)]
      exact List.mem_cons_of_mem _ List.mem_cons_self
    refine ⟨q.plan.procedure, plans, hplanned.procedure, hp, ?_⟩
    rw [← Setting.count_procedure]
    refine Setting.covers_of_mem ht _ hs fun predicates conditions hy => ?_
    rcases hy with hy | hy
    · exact ⟨hy.eq.1 ▸ List.mem_cons_self, hy.eq.2⟩
    · exact ⟨hy.eq.1 ▸ List.mem_cons_of_mem _ (List.mem_singleton_self _), hy.eq.2⟩

end Sequential

namespace Counter

/-- The counter beside its helper. -/
def helpedMain : Sequential := { setting := helped, layer := 1, plan := mainPlan }

theorem relies_blocks : blocks[2].Relies [] 1 [.assert (.binary .ge x.expr (.int 0))]
    [.binary .ge x.expr (.int 0)] [] where
  commands := rfl
  stated := .cons (.assert _ _) .nil
  last _ hc := absurd hc (Option.not_mem_none _)

end Counter

/-- The counter yields in a loop and relies on a predicate there, and there are an invariant and a
domain of permissions at its layer. -/
theorem Sequential.yields_covered_counter : ∃ out j d,
    Counter.helpedMain.Produces Counter.helpedProgram out j ∧
      Counter.helpedMain.source.labels.Nodup ∧
      Counter.helped.copies.Faithful Counter.helpedMain.source ∧
      Counter.helped.trusted = false ∧
      Counter.helpedMain.YieldKept j Counter.blocks[2] [] 1
        [.assert (.binary .ge Counter.x.expr (.int 0))] [.binary .ge Counter.x.expr (.int 0)] ∧
      Counter.helped.checkFormals.map Variable.name = ["__linear_D_in", "__old_x"] ∧
      Counter.helped.Dispatches d "NoninterferenceChecker_impl_Main_1" 1 ∧
      Counter.helped.Dispatches d "NoninterferenceChecker_invariant_Positive" 1 := by
  have h : Counter.helpedMain.Produces Counter.helpedProgram _ _ :=
    .of_plan Counter.plan_helped List.mem_cons_self rfl
  have hf : Counter.helped.copies.Faithful Counter.helpedMain.source :=
    Counter.faithful_helped _ List.mem_cons_self
  have hr : (Counter.copy Counter.blocks).Reachable "B" := by
    refine ⟨"A", rfl, .tail (.single (b := "H") ?_) ?_⟩
    · exact ⟨Counter.blocks[0], List.getElem_mem _, rfl, by decide⟩
    · exact ⟨Counter.blocks[1], List.getElem_mem _, rfl, by decide⟩
  obtain ⟨hyields, d, -, -, -, himplementation, hinvariants, -⟩ :=
    h.yields_covered Counter.nodup_labels_blocks hf rfl
  exact ⟨_, _, d, h, Counter.nodup_labels_blocks, hf, rfl,
    hyields Counter.blocks[2] (List.getElem_mem _) hr _ _ _ _ _ Counter.relies_blocks, by decide,
    himplementation.called, (hinvariants _ (List.mem_singleton_self _) rfl).called⟩

end LayerCheck
