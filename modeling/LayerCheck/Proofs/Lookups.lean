import LayerCheck.Proofs.Frame
import LayerCheck.Proofs.Permission.Insertion
import LayerCheck.Proofs.Sequential.Aggregation
import LayerCheck.Proofs.Sequential.Entry

/-!
# Look-ups never fail

A layer is checked as it is found, and its instrumentation looks things up much later: copies in a
program that is being changed, procedures whose contracts have grown, loops at blocks that have been
split, invariants and actions by name.  A look-up that failed would silently drop what it is for.
In an accepted layer none does.

* `Setting.Resolves`: calls of invariants all of which are found.
* `Setting.Enters`, `Setting.Maintains`: what a copy starts with, and what its loops are headed by,
  spelled out.
* `PendingAsync.filter_declarations`: what is declared for a target of pending work.
* `Setting.Complete`: nothing of the layer has been dropped.
* `Setting.transform_complete`: an accepted layer is complete.
-/

namespace LayerCheck

/-! ## Calls of invariants -/

/-- The call names the invariant and passes as many arguments as it takes. -/
def Facts.Names (f : Facts) (c : Call) (i : YieldInvariant) : Prop :=
  f.invariants.get? c.callee = some i ∧ i.inputs.length = c.ins.length

theorem Facts.checkInvariantCall_eq_ok {f : Facts} {c : Call} {u : Unit} :
    f.checkInvariantCall c = .ok u ↔ ∃ i, f.Names c i := by
  simp only [checkInvariantCall, Except.bind_eq_ok, Table.require_eq_ok, checkArity_eq_ok, Names]

namespace Setting

variable {s : Setting} {l : Layer} {p : Program}

/-- Every call finds its invariant, and gives the clauses of the invariant if it is checked at the
layer. -/
def Resolves (s : Setting) (l : Layer) (calls : List Call) : Prop :=
  ∃ is, List.Forall₂ s.facts.Names calls is ∧ ∀ actual, s.activeClauses l actual calls =
    ((calls.zip is).filter (·.2.layer == l)).flatMap fun e => e.2.instantiate (e.1.ins.map actual)

theorem resolves {calls : List Call} (h : ∀ c ∈ calls, s.facts.checkInvariantCall c = .ok ()) :
    s.Resolves l calls := by
  obtain ⟨is, his⟩ := List.exists_forall₂ fun c hc => Facts.checkInvariantCall_eq_ok.mp (h c hc)
  refine ⟨is, his, fun actual => ?_⟩
  clear h
  induction his with
  | nil => rfl
  | @cons c i calls is hi _ ih =>
    have hcons : s.activeClauses l actual (c :: calls) =
        ((s.facts.activeInvariant? l c).map fun i => i.instantiate (c.ins.map actual)).getD [] ++
          s.activeClauses l actual calls := rfl
    rw [hcons, ih, Facts.activeInvariant?, hi.1, List.zip_cons_cons, List.filter_cons,
      Option.filter_some]
    split
    · rfl
    · rfl

/-- The invariants of a yielding loop that a block heads have been looked up. -/
theorem checkInvariantCall_of_checkBlock {i : Implementation} {b : Block}
    (h : s.checkBlock l p i b = .ok ()) {loop : YieldingLoop}
    (hl : s.copies.activeLoop? s.facts l ⟨i.name, b.label⟩ = some loop) :
    ∀ c ∈ loop.invariants, s.facts.checkInvariantCall c = .ok () := by
  rw [checkBlock, hl] at h
  obtain ⟨⟨⟩, hc, -⟩ := Except.bind_eq_ok.mp h
  exact Except.forM_eq_ok.mp hc

end Setting

/-! ## Pending work -/

namespace PendingAsync

variable {s : Setting} {l : Layer} {target : String}

theorem checkerName_injective {t u : String} (h : checkerName t l = checkerName u l) : t = u :=
  (String.append_right_inj _).mp ((String.append_left_inj _).mp ((String.append_left_inj _).mp h))

/-- **A target of pending work has one checker, a procedure with its implementation.** -/
theorem filter_declarations (ht : s.trusted = false) (hp : target ∈ s.facts.pendingTargets l)
    {a : AtomicAction} (ha : s.facts.actions.get? target = some a) :
    (declarations s l).filter (·.name = checkerName target l) =
      [.procedure (procedure s l target a), .implementation (implementation s l target a)] := by
  have hn : (s.facts.pendingTargets l).Nodup := List.nodup_eraseDups _
  rw [declarations, if_neg (by rw [ht]; decide), List.filter_flatMap, hn.flatMap_eq hp]
  · rw [ha]
    rw [List.filter_cons_of_pos (by simp [Declaration.name, procedure]),
      List.filter_cons_of_pos (by simp [Declaration.name, implementation]), List.filter_nil]
  · intro u _ hu
    have hne : checkerName u l ≠ checkerName target l := fun h => hu (checkerName_injective h)
    cases s.facts.actions.get? u with
    | none => rfl
    | some b => simp [Declaration.name, procedure, implementation, hne]

end PendingAsync

namespace Setting

variable {s : Setting} {l : Layer} {p : Program}

/-- Nothing else is declared under the name of the checker of pending work. -/
theorem filter_declarations (plans : List Plan) (contracts : Table String Procedure)
    (target : String) :
    (s.output l plans contracts).declarations.filter (·.name = PendingAsync.checkerName target l) =
      (PendingAsync.declarations s l).filter (·.name = PendingAsync.checkerName target l) := by
  have hletter : ∀ {ds : List Declaration} {c : Char}, c ≠ 'e' →
      (∀ d ∈ ds, d.name.toList[1]? = some c) →
      ds.filter (·.name = PendingAsync.checkerName target l) = [] := by
    intro ds c hc hds
    refine List.filter_eq_nil_iff.mpr fun d hd he => hc ?_
    have hd := hds d hd
    rw [of_decide_eq_true he, getElem?_pendingName] at hd
    exact (Option.some_inj.mp hd).symm
  simp only [output, outputOf, List.filter_append]
  rw [hletter (by decide) fun d => letter_of_mem_interferenceCheckers,
    hletter (by decide) fun d => letter_of_mem_aggregators,
    hletter (by decide) fun d => letter_of_mem_dispatcherDeclarations,
    List.nil_append, List.nil_append, List.append_nil]

/-! ## A layer of which nothing is dropped -/

/-- The copy is one of a mover that is atomic at the layer. -/
def skips (s : Setting) (l : Layer) (origin : Origin) : Bool :=
  (s.facts.procedures.get? origin.procedure).any fun y => y.isMover && y.upper == l

/-- The commands lead to any state that the contract of the copy allows.  Globals are arbitrary, what
is carried on entry is disjoint, and of the inputs of the copy holds what the procedure requires and
what the invariants say that are required and checked at the layer. -/
def Enters (s : Setting) (l : Layer) (plan : Plan) (commands : List Command) : Prop :=
  ∃ is, List.Forall₂ s.facts.Names plan.yielding.requires is ∧
    let inputs : Subst := .ofFormals plan.procedure.inputs
      (plan.implementation.inputs.map fun v => .var v.name)
    commands =
      (if s.facts.globals = [] then [] else [.havoc (s.facts.globals.map Variable.name)]) ++
      s.permissions.assumptionsWithGlobals plan.implementation.inputs s.facts.globals
        (.entry plan.origin.implementation) ++
      (plan.procedure.requires.map fun c => .assume (c.condition.subst inputs)) ++
      ((plan.yielding.requires.zip is).filter (·.2.layer == l)).flatMap fun e =>
        e.2.requires.map fun c =>
          .assume ((c.condition.subst (.ofFormals e.2.inputs (e.1.ins.map .old))).subst inputs)

/-- The commands with which a copy is entered, once the invariants it requires have been found. -/
theorem enters_preconditions {plan : Plan}
    (h : ∀ c ∈ plan.yielding.requires, s.facts.checkInvariantCall c = .ok ()) :
    s.Enters l plan (s.preconditions l plan) := by
  obtain ⟨is, his, hclauses⟩ := resolves (l := l) h
  refine ⟨is, his, ?_⟩
  rw [preconditions, havocGlobals_eq, Permissions.assumeDisjoint_globals_eq, entryClauses, hclauses,
    List.map_append, List.map_flatMap, ← List.append_assoc]
  simp only [YieldInvariant.instantiate, List.map_map]
  rfl

/-- The commands state the invariants of a loop that are checked at the layer: free clauses are
assumed, all others asserted. -/
def Maintains (s : Setting) (l : Layer) (loop : YieldingLoop) (commands : List Command) : Prop :=
  ∃ is, List.Forall₂ s.facts.Names loop.invariants is ∧
    commands = ((loop.invariants.zip is).filter (·.2.layer == l)).flatMap fun e =>
      e.2.requires.map fun c =>
        if c.free then .assume (c.condition.subst (.ofFormals e.2.inputs e.1.ins))
        else .assert (c.condition.subst (.ofFormals e.2.inputs e.1.ins))

/-- The commands at the head of a loop, once its invariants have been found. -/
theorem maintains_activeClauses {loop : YieldingLoop} (h : s.Resolves l loop.invariants) :
    s.Maintains l loop ((s.activeClauses l id loop.invariants).map Clause.command) := by
  obtain ⟨is, his, hclauses⟩ := h
  refine ⟨is, his, ?_⟩
  rw [hclauses, List.map_flatMap]
  simp only [YieldInvariant.instantiate, List.map_map, List.map_id]
  rfl

/-- All that a copy which is made sequential looks up is found. -/
structure Found (s : Setting) (l : Layer) (out : Program × LayerOutput) (plan : Plan) : Prop where
  /-- The initial block starts with the preconditions of the copy, sets up the locals that have been
  added, and goes on with the entry of the copy. -/
  initial : ∃ j b entry rest e, out.1.implementations.get? plan.name = some j ∧
    j.blocks.head? = some b ∧ b.label = Label.initial ∧ b.commands = entry ++ rest ∧
    s.Enters l plan entry ∧
    (∀ c ∈ rest, ∃ targets values, c = .assign targets values ∧
      targets ⊆ (j.locals.drop plan.implementation.locals.length).map Variable.name) ∧
    plan.implementation.entryLabel? = some e ∧ b.transfer = .goto [e]
  /-- The components of a parallel call have callees that take what they pass, and no callee is left
  out. -/
  components : ∀ b ∈ plan.implementation.blocks, ∀ c, .par c ∈ b.commands →
    ∃ rs, List.Forall₂ (ParCall.Fits out.1.procedures) c.calls rs ∧
      c.callees out.1.procedures = rs.zipIdx
  /-- The parallel calls that become calls of aggregators are calls of the copy. -/
  parCalls : ∀ c ∈ Sequential.parCalls { setting := s, layer := l, plan },
    ∃ b ∈ plan.implementation.blocks, .par c ∈ b.commands
  /-- A block that comes from the head of a yielding loop of the layer finds its invariants. -/
  loops : ∀ b ∈ plan.implementation.blocks, ∀ source loop,
    s.copies.blocks.get? ⟨plan.name, b.label⟩ = some source →
    s.facts.loops.get? source = some loop → l ∈ loop.layers → s.Resolves l loop.invariants
  /-- The loops that are opened are headed by such blocks, and none of their invariants is missing
  there. -/
  headers : ∀ header ∈ Sequential.headers { setting := s, layer := l, plan },
    ∃ b ∈ plan.implementation.blocks, b.label = header ∧ ∃ source loop,
      s.copies.blocks.get? ⟨plan.name, header⟩ = some source ∧
      s.facts.loops.get? source = some loop ∧ l ∈ loop.layers ∧
      ∃ j c before maintained behind, out.1.implementations.get? plan.name = some j ∧
        c ∈ j.blocks ∧ c.label = header ∧ c.commands = before ++ maintained ++ behind ∧
        s.Maintains l loop maintained

/-- The plans are what the look-ups of the layer find, and nothing of the layer is dropped. -/
structure Complete (s : Setting) (l : Layer) (p : Program) (out : Program × LayerOutput)
    (plans : List Plan) : Prop where
  /-- Every copy has one plan. -/
  names : plans.map Plan.name = s.copies.implementations.keys
  skipped : out.2.summary.skipped =
    (s.copies.implementations.entries.filter fun e => s.skips l e.2).map Prod.fst
  transformed : out.2.summary.transformed =
    (s.copies.implementations.entries.filter fun e => !s.skips l e.2).map Prod.fst
  once : (out.2.summary.transformed ++ out.2.summary.skipped).Perm s.copies.implementations.keys
  copy : ∀ plan ∈ plans,
    s.copies.implementations.get? plan.name = some plan.origin ∧
    s.facts.procedures.get? plan.origin.procedure = some plan.yielding ∧
    p.implementations.get? plan.name = some plan.implementation ∧
    out.1.implementations.get? plan.name = some (s.transformCopy l plan)
  /-- When its turn comes, a copy is as it was, and it finds the commands with which it is
  entered. -/
  turn : ∀ done plan rest, plans = done ++ plan :: rest →
    let a := done.foldl (s.transformNext l out.1.procedures) (s.start l p plans)
    a.implementations.get? plan.name = some plan.implementation ∧
      ∃ entry, a.entries.get? plan.name = some entry ∧ s.Enters l plan entry
  /-- The procedure of a copy is there, before and after contracts have changed. -/
  procedure : ∀ plan ∈ plans,
    p.procedures.get? plan.implementation.procedure = some plan.procedure ∧
    (out.1.procedures.get? plan.implementation.procedure).isSome
  contract : ∀ plan ∈ plans,
    s.Resolves l plan.yielding.requires ∧ s.Resolves l plan.yielding.ensures
  found : ∀ plan ∈ plans, plan.isAtomicAt l = false → s.Found l out plan
  /-- If interference is checked, every target of pending work has one checker. -/
  pending : s.trusted = false → ∀ target ∈ s.facts.pendingTargets l, ∃ a,
    s.facts.actions.get? target = some a ∧ (p.procedures.get? target).isSome ∧
    out.2.declarations.filter (·.name = PendingAsync.checkerName target l) =
      [.procedure (PendingAsync.procedure s l target a),
        .implementation (PendingAsync.implementation s l target a)]

/-- Plans are skipped as their copies are. -/
theorem map_filter_name {plans : List Plan} (h : s.plan l p = .ok plans)
    (keep : Bool → Bool) :
    (plans.filter fun plan => keep (plan.isAtomicAt l)).map Plan.name =
      (s.copies.implementations.entries.filter fun e => keep (s.skips l e.2)).map Prod.fst := by
  have hf := plan_eq_ok h
  generalize s.copies.implementations.entries = es at hf
  clear h
  induction hf with
  | nil => rfl
  | @cons e plan es plans hp _ ih =>
    have hname : plan.name = e.1 := p.implementations_keyed.name_eq hp.implementation
    have hskip : s.skips l e.2 = plan.isAtomicAt l := by
      rw [skips, hp.yielding]
      rfl
    rw [List.filter_cons, List.filter_cons, hskip]
    split
    · rw [List.map_cons, List.map_cons, ih, hname]
    · exact ih

theorem checkPending_eq_ok {target : String} (h : s.checkPending p target = .ok ()) :
    (∃ a, s.facts.actions.get? target = some a) ∧ (p.procedures.get? target).isSome := by
  simp only [checkPending, Except.bind_eq_ok, Table.require_eq_ok] at h
  obtain ⟨a, ha, r, hr, -⟩ := h
  exact ⟨⟨a, ha⟩, Option.isSome_iff_exists.mpr ⟨r, hr⟩⟩

/-- What a copy looks up has been looked up when it was planned. -/
theorem found {q : Sequential} {out : Program × LayerOutput} {j : Implementation}
    (h : q.Produces p out j) (hn : q.source.labels.Nodup)
    (hf : q.setting.copies.Faithful q.source) :
    q.setting.Found q.layer out q.plan := by
  have hw := h.wellFormed hn hf
  obtain ⟨name, origin, hp⟩ := h.exists_planned
  obtain ⟨-, -, -, hblocks⟩ := checkConcurrent_eq_ok (hp.concurrent h.concurrent)
  constructor
  case initial =>
    obtain ⟨b, bs, hb⟩ := List.exists_cons_of_ne_nil hw.nonempty
    have he : q.source.entryLabel? = some b.label := by
      rw [Implementation.entryLabel?, Implementation.labels, hb]
      rfl
    refine ⟨j, q.initialBlock q.others, q.setting.preconditions q.layer q.plan, q.setUp, b.label,
      h.result, ?_, rfl, ?_, enters_preconditions fun c hc => hp.calls c (List.mem_append_left _ hc),
      fun c hc => ?_, he, ?_⟩
    · rw [h.eq_implementation]
      rfl
    · simp only [Sequential.initialBlock, Sequential.initialBlockFrom, Sequential.setUp,
        List.append_assoc]
    · have hlocals : j.locals.drop q.plan.implementation.locals.length = q.locals := by
        rw [h.eq_implementation]
        exact List.drop_left
      rw [hlocals]
      exact Sequential.setsLocals_of_mem_setUp hc
    · rw [hw.initialBlock_transfer, he]
      rfl
  case components =>
    intro b hb c hc
    obtain ⟨rs, hrs⟩ := h.exists_components_of_mem hb hc
    exact ⟨rs, hrs, ParCall.callees_eq (hrs.imp fun _ _ hr => hr.1)⟩
  case parCalls => exact fun c hc => Sequential.mem_source_of_mem_parCalls hc
  case loops =>
    intro b hb source loop hs hl hm
    exact resolves (checkInvariantCall_of_checkBlock (hblocks b hb)
      (Copies.activeLoop?_eq_some_iff.mpr ⟨source, hs, hl, hm⟩))
  case headers =>
    intro header hh
    obtain ⟨loop, hloop⟩ := Option.isSome_iff_exists.mp (List.mem_filter.mp hh).2
    obtain ⟨b, hb, rfl⟩ := Implementation.mem_labels.mp (hw.mem_labels_of_mem_headers hh)
    obtain ⟨source, hs, hl, hm⟩ := Copies.activeLoop?_eq_some_iff.mp hloop
    refine ⟨b, hb, rfl, source, loop, hs, hl, hm, j, ?_⟩
    obtain ⟨c, hc, hcl⟩ := Implementation.mem_labels.mp (List.mem_of_mem_filter hh)
    obtain ⟨before, behind, hcommands⟩ := hw.exists_loopInvariants hc (hcl ▸ hh)
    refine ⟨q.outBlock c, before, q.loopInvariants c.label, behind, h.result, ?_, hcl, hcommands, ?_⟩
    · rw [h.eq_implementation]
      exact hw.outBlock_mem hc
    · rw [hcl, Sequential.loopInvariants, hloop]
      exact maintains_activeClauses (resolves (checkInvariantCall_of_checkBlock (hblocks b hb) hloop))

/-- What the copies before it have become does not touch what a copy is about to look up. -/
theorem turn {plans done rest : List Plan} {plan : Plan} (hp : s.plan l p = .ok plans)
    (hd : plans = done ++ plan :: rest) (contracts : Table String Procedure) :
    let a := done.foldl (s.transformNext l contracts) (s.start l p plans)
    a.implementations.get? plan.name = some plan.implementation ∧
      ∃ entry, a.entries.get? plan.name = some entry ∧ s.Enters l plan entry := by
  have hpresent := present hp
  have hnames := nodup_names hp
  have hm : plan ∈ plans := hd ▸ List.mem_append_right _ List.mem_cons_self
  obtain ⟨origin, -, hpl⟩ := exists_copy hp hm
  have hsub : ∀ c ∈ done, c ∈ plans := fun c hc => hd ▸ List.mem_append_left _ hc
  have hdone : (done.map Plan.name).Nodup ∧ plan.name ∉ done.map Plan.name := by
    rw [hd, List.map_append, List.map_cons, List.nodup_append] at hnames
    exact ⟨hnames.1, fun hx => hnames.2.2 _ hx _ List.mem_cons_self rfl⟩
  have ha := foldl_transformNext (a := s.start l p plans) contracts hdone.1
    (fun c hc => (hpresent c (hsub c hc)).implementation)
    fun c hc => get?_entries hpresent hnames (hsub c hc)
  refine ⟨?_, s.preconditions l plan, ?_,
    enters_preconditions fun c hc => hpl.calls c (List.mem_append_left _ hc)⟩
  · rw [ha.implementations, Table.get?_insertAll_of_notMem (by rw [List.map_map]; exact hdone.2)]
    exact hpl.implementation
  · rw [ha.entries _ hdone.2]
    exact get?_entries hpresent hnames hm

/-- **No look-up of an accepted layer fails.**  Every copy is either made sequential or, exactly if
it is one of a mover at its upper layer, skipped; initial blocks have their preconditions, parallel
calls all their components, loops and contracts all their invariants, and every target of pending
work has one checker. -/
theorem transform_complete {out : Program × LayerOutput}
    (h : s.transform l p = .ok out)
    (hn : ∀ name ∈ s.copies.implementations.keys, ∀ i, p.implementations.get? name = some i →
      i.labels.Nodup ∧ s.copies.Faithful i) :
    ∃ plans, s.plan l p = .ok plans ∧ s.Complete l p out plans := by
  obtain ⟨plans, hp, rfl⟩ := transform_eq_ok.mp h
  refine ⟨plans, hp, ?_⟩
  have hskipped := map_filter_name hp id
  have htransformed := map_filter_name hp not
  constructor
  case names => exact map_name_eq hp
  case skipped => exact hskipped
  case transformed => exact htransformed
  case once =>
    show ((concurrent l plans).map Plan.name ++ _).Perm _
    rw [← map_name_eq hp, concurrent]
    have hperm := List.filter_append_perm (fun plan : Plan => !plan.isAtomicAt l) plans
    simp only [Bool.not_not] at hperm
    exact List.map_append ▸ hperm.map Plan.name
  case copy =>
    intro plan hm
    obtain ⟨origin, ho, hpl⟩ := exists_copy hp hm
    obtain rfl := hpl.origin_eq
    exact ⟨ho, hpl.yielding, hpl.implementation, get?_transformProgram hp hm⟩
  case turn => exact fun done plan rest hd => turn hp hd _
  case procedure =>
    intro plan hm
    obtain ⟨origin, -, hpl⟩ := exists_copy hp hm
    refine ⟨hpl.procedure, ?_⟩
    obtain ⟨r, hr, -⟩ := exists_contract s l plans hpl.procedure
    exact Option.isSome_iff_exists.mpr ⟨r, hr⟩
  case contract =>
    intro plan hm
    obtain ⟨origin, -, hpl⟩ := exists_copy hp hm
    exact ⟨resolves fun c hc => hpl.calls c (List.mem_append_left _ hc),
      resolves fun c hc => hpl.calls c (List.mem_append_right _ hc)⟩
  case found =>
    intro plan hm hc
    obtain ⟨origin, ho, hpl⟩ := exists_copy hp hm
    obtain ⟨hnodup, hfaithful⟩ := hn plan.name (Table.mem_keys.mpr ⟨_, ho⟩) _ hpl.implementation
    exact found (Sequential.Produces.of_plan (q := { setting := s, layer := l, plan }) hp hm hc)
      hnodup hfaithful
  case pending =>
    intro ht target htarget
    have hcheck := (plan_eq_ok_iff.mp hp).2 ht target htarget
    obtain ⟨⟨a, ha⟩, hr⟩ := checkPending_eq_ok hcheck
    refine ⟨a, ha, hr, ?_⟩
    exact (filter_declarations plans _ target).trans
      (PendingAsync.filter_declarations ht htarget ha)

end Setting

/-- Of the counter and its helper, the helper is skipped; the counter has an invariant, a loop and a
parallel call, and leaves work for later. -/
theorem Setting.transform_complete_helped :
    Counter.helped.transform 1 Counter.helpedProgram = .ok Counter.helpedOut ∧
      (∀ name ∈ Counter.helped.copies.implementations.keys, ∀ i,
        Counter.helpedProgram.implementations.get? name = some i →
          i.labels.Nodup ∧ Counter.helped.copies.Faithful i) ∧
      ∃ plans, Counter.helped.plan 1 Counter.helpedProgram = .ok plans ∧
        Counter.helped.Complete 1 Counter.helpedProgram Counter.helpedOut plans := by
  have hn : ∀ name ∈ Counter.helped.copies.implementations.keys, ∀ i,
      Counter.helpedProgram.implementations.get? name = some i →
        i.labels.Nodup ∧ Counter.helped.copies.Faithful i := by
    intro name hname i hi
    rcases List.mem_cons.mp hname with rfl | hname
    · have hi : some Counter.mainPlan.implementation = some i := hi
      obtain rfl := Option.some_inj.mp hi
      exact ⟨Counter.nodup_labels_blocks, Counter.faithful_helped _ (by simp)⟩
    · obtain rfl := List.mem_singleton.mp hname
      have hi : some Counter.helpPlan.implementation = some i := hi
      obtain rfl := Option.some_inj.mp hi
      exact ⟨by decide, Counter.faithful_helped _ (by simp)⟩
  exact ⟨Counter.transform_helped, hn,
    transform_complete Counter.transform_helped hn⟩

end LayerCheck
