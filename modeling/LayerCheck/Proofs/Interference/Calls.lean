import LayerCheck.Proofs.Interference.Coverage
import LayerCheck.Proofs.Lookups
import LayerCheck.Proofs.Sequential.Intact

/-!
# Calls that instrumentation makes up

Aggregators apart, a layer makes up three kinds of calls: checks of interference call the
dispatcher, the dispatcher calls the checkers, and the checkers of pending work call their targets.
The first two are made from the same variables as the formals of what they call, so they always fit.
Of a target it is only looked up that it is an action and a procedure, and its arguments are the
inputs of the action: nothing is said of how many inputs the procedure has.

* `Setting.Synthesized`: the calls that a layer makes up.
* `Setting.synthesized_iff`: which calls these are.
* `Setting.transform_calls_fit_iff`: they all fit exactly if every target of pending work has as
  many formals as its procedure.
-/

namespace LayerCheck

/-! ## Calls and callees -/

/-- Some block makes the call. -/
def Implementation.Makes (i : Implementation) (c : Call) : Prop :=
  ∃ b ∈ i.blocks, .call c ∈ b.commands

/-- The call passes as many arguments as there are inputs, and takes as many results as there are
outputs. -/
structure Call.Fits (c : Call) (r : Procedure) : Prop where
  ins : c.ins.length = r.inputs.length
  outs : c.outs.length = r.outputs.length

theorem Command.call_notMem_assignAll {c : Call} {targets : List String} {values : List Expr} :
    .call c ∉ assignAll targets values := by
  rw [assignAll]
  split <;> simp

namespace Checker

variable {p : Permissions} {globals : List Variable} {s : Subject} {c : Call}

theorem call_notMem_commands {vars : List Variable} {predicates : List Command} :
    .call c ∉ commands p globals vars predicates := by
  rw [commands_eq]
  simp

/-- Checkers make no calls. -/
theorem not_makes : ¬ (ofSubject p globals s).implementation.Makes c := by
  rintro ⟨b, hb, hc⟩
  rcases List.mem_cons.mp hb with rfl | hb
  · exact List.not_mem_nil hc
  rcases List.mem_cons.mp hb with rfl | hb
  · exact List.not_mem_nil hc
  · obtain ⟨⟨predicates, i⟩, -, rfl⟩ := List.mem_map.mp hb
    rcases List.mem_append.mp hc with hc | hc
    · exact call_notMem_commands hc
    · cases List.mem_singleton.mp hc

end Checker

namespace Dispatcher

/-- **The dispatcher calls every checker with its own formals.** -/
theorem makes_iff {d : Procedure} {names : List String} {c : Call} :
    (implementation d names).Makes c ↔ ∃ name ∈ names,
      c = { id := .generated, callee := name, ins := d.inputs.map Variable.expr } := by
  constructor
  · rintro ⟨b, hb, hc⟩
    rcases List.mem_cons.mp hb with rfl | hb
    · exact absurd hc List.not_mem_nil
    · obtain ⟨⟨name, k⟩, hn, rfl⟩ := List.mem_map.mp hb
      cases List.mem_singleton.mp hc
      exact ⟨name, List.fst_mem_of_mem_zipIdx hn, rfl⟩
  · rintro ⟨name, hn, rfl⟩
    obtain ⟨k, hk⟩ := List.getElem?_of_mem hn
    have hz : (name, k) ∈ names.zipIdx := List.mem_zipIdx_iff_getElem?.mpr hk
    have hb : branch (d.inputs.map Variable.expr) k name ∈
        names.zipIdx.map fun e => branch (d.inputs.map Variable.expr) e.2 e.1 :=
      List.mem_map_of_mem hz
    exact ⟨_, List.mem_cons_of_mem _ hb, List.mem_singleton_self _⟩

end Dispatcher

namespace Setting

variable {s : Setting} {l : Layer}

/-- The call by which a step is handed to the dispatcher. -/
def dispatchCall (s : Setting) (l : Layer) : Call :=
  { id := .generated
    callee := Dispatcher.name l
    ins := (s.permissions.domains.values.map Domain.collector ++
      Snapshot.shadows s.globals).map Variable.expr }

/-- The call by which the dispatcher runs the checker of a subject. -/
def checkerCall (s : Setting) (l : Layer) (t : Subject) : Call :=
  { id := .generated
    callee := t.checkerName
    ins := (s.dispatcher l).inputs.map Variable.expr }

theorem dispatch_interference (ht : s.trusted = false) :
    (s.interference l).dispatch = [.call (s.dispatchCall l)] := by
  rw [interference, interferenceBy, if_neg (by rw [ht]; decide)]
  rfl

/-- **What is stored of a step is what checkers take.** -/
theorem fits_dispatchCall (s : Setting) (l : Layer) : (s.dispatchCall l).Fits (s.dispatcher l) where
  ins := by
    simp [dispatchCall, dispatcher, Dispatcher.procedure, checkerInputs, Checker.inputs,
      Snapshot.shadows]
  outs := rfl

/-- Dispatcher and checkers have the same formals. -/
theorem fits_checkerCall (s : Setting) (l : Layer) (t : Subject) :
    (s.checkerCall l t).Fits (s.checker t).procedure where
  ins := List.length_map _
  outs := rfl

end Setting

namespace PendingAsync

variable {s : Setting} {l : Layer} {target : String} {a : AtomicAction} {c : Call}

/-- The call that performs the action. -/
def targetCall (target : String) (a : AtomicAction) : Call :=
  { id := .generated
    callee := target
    ins := a.inputs.map Variable.expr
    outs := a.outputs.map Variable.name }

theorem fits_targetCall_iff {r : Procedure} : (targetCall target a).Fits r ↔
    a.inputs.length = r.inputs.length ∧ a.outputs.length = r.outputs.length := by
  constructor
  · intro h
    exact ⟨(List.length_map _).symm.trans h.ins, (List.length_map _).symm.trans h.outs⟩
  · intro h
    exact ⟨(List.length_map _).trans h.1, (List.length_map _).trans h.2⟩

/-- **A checker of pending work calls its target, then the dispatcher.** -/
theorem makes_iff (ht : s.trusted = false) :
    (implementation s l target a).Makes c ↔ c = targetCall target a ∨ c = s.dispatchCall l := by
  have hupdate : .call c ∉ Snapshot.update s.globals := Command.call_notMem_assignAll
  have hcollect : .call c ∉ (s.interference l).collect (.entry target) a.inputs := by
    cases s.interference l with
    | trusted => exact List.not_mem_nil
    | checked t => exact Command.call_notMem_assignAll
  simp [Implementation.Makes, implementation, Setting.dispatch_interference ht, hupdate, hcollect,
    perform, targetCall]

theorem mem_implementations_declarations (ht : s.trusted = false) {i : Implementation} :
    .implementation i ∈ declarations s l ↔ ∃ target ∈ s.facts.pendingTargets l, ∃ a,
      s.facts.actions.get? target = some a ∧ i = implementation s l target a := by
  rw [declarations, if_neg (by rw [ht]; decide), List.mem_flatMap]
  refine exists_congr fun target => and_congr_right fun _ => ?_
  cases s.facts.actions.get? target with
  | none => simp
  | some a => simp

end PendingAsync

/-! ## The calls of a layer -/

theorem Sequential.noninterference_mem (q : Sequential) :
    .sink Label.noninterference q.interference.dispatch ∈ q.implementation.blocks := by
  rw [blocks_implementation]
  exact List.mem_cons_of_mem _ (List.mem_append_left _ (List.mem_append_right _ List.mem_cons_self))

/-- A check of interference does nothing but run the dispatcher. -/
theorem Sequential.Labelled.eq_sink {q : Sequential} (h : q.Labelled) {b : Block}
    (hb : b ∈ q.implementation.blocks) (hl : b.label = Label.noninterference) :
    b = .sink Label.noninterference q.interference.dispatch := by
  rw [blocks_implementation] at hb
  rcases List.mem_cons.mp hb with rfl | hb
  · have hne : Label.initial ≠ Label.noninterference := by decide
    exact absurd hl hne
  rcases List.mem_append.mp hb with hb | hb
  · rcases List.mem_append.mp hb with hb | hb
    · obtain ⟨c, hc, rfl⟩ := List.mem_map.mp hb
      have hm : c.label ∈ q.base.labels := q.labels_opened ▸ List.mem_map_of_mem hc
      rw [label_finished] at hl
      exact absurd (hl ▸ by decide) (h.of_mem_labels_base hm).1
    · have hn : (q.checkers.map Block.label).Nodup := by
        rw [labels_checkers]
        decide
      exact List.inj_on_of_nodup_map hn hb List.mem_cons_self hl
  · have hm := q.prepared_opened.mem_labels_spliced (List.mem_map_of_mem hb)
    exact absurd (hl ▸ by decide) (h.prepared _ hm).1

namespace Setting

variable {s : Setting} {l : Layer} {p : Program} {out : Program × LayerOutput} {c : Call}

/-- The calls that a layer makes up, aggregators apart: those of the implementations that are
declared, and those by which the copies check interference. -/
def Synthesized (out : Program × LayerOutput) (c : Call) : Prop :=
  (∃ i, .implementation i ∈ out.2.declarations ∧ i.Makes c) ∨
    ∃ name ∈ out.2.summary.transformed, ∃ j, out.1.implementations.get? name = some j ∧
      ∃ b ∈ j.blocks, b.label = Label.noninterference ∧ .call c ∈ b.commands

/-- The procedure stands under the name in the program or in the declarations. -/
def Offered (out : Program × LayerOutput) (name : String) (r : Procedure) : Prop :=
  out.1.procedures.get? name = some r ∨ .procedure r ∈ out.2.declarations ∧ r.name = name

/-- The implementations that are declared. -/
theorem mem_implementations_output (ht : s.trusted = false) {plans : List Plan}
    {contracts : Table String Procedure} {i : Implementation} :
    .implementation i ∈ (s.output l plans contracts).declarations ↔
      (∃ t ∈ s.layerSubjects l plans, i = (s.checker t).implementation) ∨
      (∃ target ∈ s.facts.pendingTargets l, ∃ a, s.facts.actions.get? target = some a ∧
        i = PendingAsync.implementation s l target a) ∨
      i = Dispatcher.implementation (s.dispatcher l)
        ((s.layerSubjects l plans).map Subject.checkerName) := by
  rw [← PendingAsync.mem_implementations_declarations ht]
  simp only [output, outputOf, procedureNames_interferenceCheckers ht]
  simp [interferenceCheckers_eq ht, Checker.declarations, dispatcherDeclarations]

/-- The calls of the implementations that are declared. -/
theorem exists_makes_iff (ht : s.trusted = false) {plans : List Plan}
    {contracts : Table String Procedure} :
    (∃ i, .implementation i ∈ (s.output l plans contracts).declarations ∧ i.Makes c) ↔
      (∃ t ∈ s.layerSubjects l plans, c = s.checkerCall l t) ∨
      ∃ target ∈ s.facts.pendingTargets l, ∃ a, s.facts.actions.get? target = some a ∧
        (c = PendingAsync.targetCall target a ∨ c = s.dispatchCall l) := by
  simp only [mem_implementations_output ht]
  constructor
  · rintro ⟨i, ⟨t, -, rfl⟩ | ⟨target, htarget, a, ha, rfl⟩ | rfl, hc⟩
    · exact absurd hc Checker.not_makes
    · exact .inr ⟨target, htarget, a, ha, (PendingAsync.makes_iff ht).mp hc⟩
    · obtain ⟨name, hname, rfl⟩ := Dispatcher.makes_iff.mp hc
      obtain ⟨t, hts, rfl⟩ := List.mem_map.mp hname
      exact .inl ⟨t, hts, rfl⟩
  · rintro (⟨t, hts, rfl⟩ | ⟨target, htarget, a, ha, hc⟩)
    · exact ⟨_, .inr (.inr rfl), Dispatcher.makes_iff.mpr ⟨_, List.mem_map_of_mem hts, rfl⟩⟩
    · exact ⟨_, .inr (.inl ⟨target, htarget, a, ha, rfl⟩), (PendingAsync.makes_iff ht).mpr hc⟩

/-- The calls by which the copies check interference. -/
theorem exists_check_iff (ht : s.trusted = false) {plans : List Plan}
    (h : s.plan l p = .ok plans) :
    (∃ name ∈ (s.output l plans (s.transformProgram l plans p).procedures).summary.transformed,
      ∃ j, (s.transformProgram l plans p).implementations.get? name = some j ∧
        ∃ b ∈ j.blocks, b.label = Label.noninterference ∧ .call c ∈ b.commands) ↔
      concurrent l plans ≠ [] ∧ c = s.dispatchCall l := by
  constructor
  · rintro ⟨name, hname, j, hj, b, hb, hl, hc⟩
    obtain ⟨plan, hm, rfl⟩ := List.mem_map.mp hname
    have hp := Sequential.Produces.of_concurrent h hm
    obtain rfl := Option.some_inj.mp (hj.symm.trans hp.result)
    obtain rfl := hp.labelled.eq_sink hb hl
    rw [Block.sink, Sequential.interference, dispatch_interference ht] at hc
    refine ⟨List.ne_nil_of_mem hm, ?_⟩
    simpa [Command.stop] using hc
  · rintro ⟨hne, rfl⟩
    obtain ⟨plan, hm⟩ := List.exists_mem_of_ne_nil _ hne
    have hp := Sequential.Produces.of_concurrent h hm
    refine ⟨plan.name, List.mem_map_of_mem hm, _, hp.result, _, Sequential.noninterference_mem _,
      rfl, ?_⟩
    rw [Sequential.interference, dispatch_interference ht]
    exact List.mem_cons_self

/-- **The calls that an accepted layer makes up.** -/
theorem synthesized_iff (ht : s.trusted = false) {plans : List Plan}
    (h : s.plan l p = .ok plans) :
    Synthesized (s.transformProgram l plans p,
        s.output l plans (s.transformProgram l plans p).procedures) c ↔
      (∃ t ∈ s.layerSubjects l plans, c = s.checkerCall l t) ∨
      (∃ target ∈ s.facts.pendingTargets l, ∃ a, s.facts.actions.get? target = some a ∧
        (c = PendingAsync.targetCall target a ∨ c = s.dispatchCall l)) ∨
      concurrent l plans ≠ [] ∧ c = s.dispatchCall l := by
  rw [Synthesized, exists_makes_iff ht, exists_check_iff ht h, or_assoc]

theorem offered_dispatcher (s : Setting) (l : Layer) (plans : List Plan) (p : Program)
    (contracts : Table String Procedure) :
    Offered (p, s.output l plans contracts) (Dispatcher.name l) (s.dispatcher l) := by
  refine .inr ⟨?_, rfl⟩
  simp [output, outputOf, dispatcherDeclarations]

theorem offered_checker (ht : s.trusted = false) {plans : List Plan}
    {contracts : Table String Procedure} {t : Subject} (h : t ∈ s.layerSubjects l plans) :
    Offered (p, s.output l plans contracts) t.checkerName (s.checker t).procedure :=
  .inr ⟨(mem_output_of_subject ht contracts h).1, rfl⟩

/-- **A call that a layer makes up fits what it calls**, or it is that of a target. -/
theorem fits_or_target (ht : s.trusted = false) (h : s.transform l p = .ok out)
    (hc : Synthesized out c) :
    (∃ r, Offered out c.callee r ∧ c.Fits r) ∨ ∃ target ∈ s.facts.pendingTargets l, ∃ a,
      s.facts.actions.get? target = some a ∧ c = PendingAsync.targetCall target a := by
  obtain ⟨plans, hp, rfl⟩ := transform_eq_ok.mp h
  rcases (synthesized_iff ht hp).mp hc with
    ⟨t, hts, rfl⟩ | ⟨target, htarget, a, ha, rfl | rfl⟩ | ⟨-, rfl⟩
  · exact .inl ⟨_, offered_checker ht hts, s.fits_checkerCall l t⟩
  · exact .inr ⟨target, htarget, a, ha, rfl⟩
  · exact .inl ⟨_, s.offered_dispatcher l plans _ _, s.fits_dispatchCall l⟩
  · exact .inl ⟨_, s.offered_dispatcher l plans _ _, s.fits_dispatchCall l⟩

/-- A target of pending work is called, and it is a procedure of the program. -/
theorem synthesized_targetCall (ht : s.trusted = false)
    (h : s.transform l p = .ok out) {target : String} (hm : target ∈ s.facts.pendingTargets l)
    {a : AtomicAction} (ha : s.facts.actions.get? target = some a) :
    Synthesized out (PendingAsync.targetCall target a) ∧
      ∃ r, out.1.procedures.get? target = some r := by
  obtain ⟨plans, hp, rfl⟩ := transform_eq_ok.mp h
  refine ⟨(synthesized_iff ht hp).mpr (.inr (.inl ⟨target, hm, a, ha, .inl rfl⟩)), ?_⟩
  have hcheck := (plan_eq_ok_iff.mp hp).2 ht target hm
  obtain ⟨r, hr⟩ := Option.isSome_iff_exists.mp (checkPending_eq_ok hcheck).2
  obtain ⟨r', hr', -⟩ := exists_contract s l plans hr
  exact ⟨r', hr'⟩

/-- **Which calls fit.**  In an accepted layer whose interference is checked, every call that is
made up names a procedure of the program or of the declarations.  All of them fit such a procedure
exactly if every target of pending work has, as an action, the formals of such a procedure. -/
theorem transform_calls_fit_iff (h : s.transform l p = .ok out)
    (ht : s.trusted = false) :
    (∀ c, Synthesized out c → ∃ r, Offered out c.callee r) ∧
      ((∀ c, Synthesized out c → ∃ r, Offered out c.callee r ∧ c.Fits r) ↔
        ∀ target ∈ s.facts.pendingTargets l, ∀ a, s.facts.actions.get? target = some a →
          ∃ r, Offered out target r ∧ a.inputs.length = r.inputs.length ∧
            a.outputs.length = r.outputs.length) := by
  refine ⟨fun c hc => ?_, fun hfit target hm a ha => ?_, fun htargets c hc => ?_⟩
  · rcases fits_or_target ht h hc with ⟨r, hr, -⟩ | ⟨target, hm, a, ha, rfl⟩
    · exact ⟨r, hr⟩
    · obtain ⟨-, r, hr⟩ := synthesized_targetCall ht h hm ha
      exact ⟨r, .inl hr⟩
  · obtain ⟨r, hr, hf⟩ := hfit _ (synthesized_targetCall ht h hm ha).1
    exact ⟨r, hr, PendingAsync.fits_targetCall_iff.mp hf⟩
  · rcases fits_or_target ht h hc with hfits | ⟨target, hm, a, ha, rfl⟩
    · exact hfits
    · obtain ⟨r, hr, hlen⟩ := htargets target hm a ha
      exact ⟨r, hr, PendingAsync.fits_targetCall_iff.mpr hlen⟩

end Setting

/-! ## A target whose procedure takes nothing -/

namespace Overdue

/-- The action `T` has an input, and is left to be performed later by another one. -/
def setting : Setting :=
  { facts := {
      procedures := .ofList [("M", { kind := .mover .non, upper := 2 })]
      actions := .ofList [("A", { name := "A", layers := ⟨1, 1⟩, pending := ["T"] }),
        ("T", { name := "T", inputs := [{ name := "i", type := .int }], layers := ⟨1, 2⟩ })] }
    copies := {
      implementations := .ofList [("M_1", ⟨"M", "M"⟩)]
      blocks := .ofList [(⟨"M_1", "A"⟩, ⟨"M", "A"⟩)] }
    yielding := ["M"] }

def copy : Implementation := { name := "M_1", procedure := "M_1", blocks := [{ label := "A" }] }

/-- The procedure `T` has no inputs. -/
def program : Program :=
  { procedures := .ofList [("M_1", { name := "M_1" }), ("T", { name := "T" })]
    implementations := .ofList [("M_1", copy)] }

def plan : Plan :=
  { implementation := copy
    procedure := { name := "M_1" }
    origin := ⟨"M", "M"⟩
    yielding := { kind := .mover .non, upper := 2 }
    action? := none }

theorem plan_eq : setting.plan 1 program = .ok [plan] := by
  refine Setting.plan_singleton rfl rfl (Setting.checkConcurrent_of_reducible ?_ rfl) rfl
  cbv

end Overdue

/-- Every call names a procedure, but the checker of the pending action passes its input to a
procedure that takes none. -/
theorem Setting.transform_calls_unfit_overdue : ∃ out,
    Overdue.setting.transform 1 Overdue.program = .ok out ∧
      Overdue.setting.trusted = false ∧ (∀ c, Synthesized out c → ∃ r, Offered out c.callee r) ∧
      ¬ ∀ c, Synthesized out c → ∃ r, Offered out c.callee r ∧ c.Fits r := by
  have h := Setting.transform_eq_ok.mpr ⟨_, Overdue.plan_eq, rfl⟩
  obtain ⟨hnames, hfits⟩ := transform_calls_fit_iff h rfl
  refine ⟨_, h, rfl, hnames, fun hall => ?_⟩
  obtain ⟨r, hr, hin, -⟩ := hfits.mp hall "T" (by decide) _ rfl
  have hi : r.inputs = [] := by
    rcases hr with hr | ⟨hr, hn⟩
    · obtain ⟨r', hr', hi, -⟩ := exists_contract Overdue.setting 1 [Overdue.plan]
        (show Overdue.program.procedures.get? "T" = some { name := "T" } from rfl)
      rw [← Option.some_inj.mp (hr'.symm.trans hr), hi]
    · obtain ⟨c, hc⟩ := exists_letter_of_mem_output hr
      rw [Declaration.name, hn] at hc
      exact absurd hc (by simp)
  rw [hi] at hin
  exact absurd hin (by decide)

end LayerCheck
