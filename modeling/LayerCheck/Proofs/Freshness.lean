import LayerCheck.Proofs.Interference.Calls
import LayerCheck.Proofs.Interference.Dispatch
import LayerCheck.Proofs.Sequential.Begin

/-!
# Names of added variables

What a layer produces has variables of the input beside variables that are added: copies of globals
and outputs, flags, permissions.  The names of added variables are made from those of what they
stand for, by a prefix for each kind, and nothing is renamed to keep clear of them.  The prefixes
differ, so added variables are told apart if globals are.  Whether they are also told apart from
the variables of the input depends on the names in the input alone.

* `Separate`: the variables of one scope have different names, and none that of a global.
* `Setting.nodup_locals_iff`, `Checker.nodup_inputs_iff`: added variables among each other.
* `Setting.Introduces`: what an implementation of the layer is made of.
* `Setting.transform_separate_iff`: when its variables are told apart.
-/

namespace LayerCheck

/-- The variables have different names, and none has one of the names of `globals`. -/
structure Separate (globals : List String) (vars : List Variable) : Prop where
  nodup : (vars.map Variable.name).Nodup
  notMem : ∀ v ∈ vars, v.name ∉ globals

section Separate

variable {globals : List String} {own added vars : List Variable}

theorem separate_congr (h : vars.Perm own) : Separate globals vars ↔ Separate globals own := by
  constructor
  · exact fun hs => ⟨(h.map _).nodup_iff.mp hs.nodup, fun v hv => hs.notMem v (h.mem_iff.mpr hv)⟩
  · exact fun hs => ⟨(h.map _).nodup_iff.mpr hs.nodup, fun v hv => hs.notMem v (h.mem_iff.mp hv)⟩

/-- Added variables have to keep clear of those that are there, and of globals. -/
theorem separate_append : Separate globals (own ++ added) ↔
    Separate globals own ∧ (added.map Variable.name).Nodup ∧
      ∀ v ∈ added, v.name ∉ own.map Variable.name ∧ v.name ∉ globals := by
  constructor
  · rintro ⟨hn, hg⟩
    rw [List.map_append, List.nodup_append] at hn
    obtain ⟨hown, hadded, hne⟩ := hn
    refine ⟨⟨hown, fun v hv => hg v (List.mem_append_left _ hv)⟩, hadded, fun v hv => ⟨?_, ?_⟩⟩
    · exact fun hm => hne _ hm _ (List.mem_map_of_mem hv) rfl
    · exact hg v (List.mem_append_right _ hv)
  · rintro ⟨hown, hadded, hne⟩
    constructor
    · rw [List.map_append, List.nodup_append]
      refine ⟨hown.nodup, hadded, fun x hx y hy hxy => ?_⟩
      obtain ⟨v, hv, rfl⟩ := List.mem_map.mp hy
      exact (hne v hv).1 (hxy ▸ hx)
    · intro v hv
      rcases List.mem_append.mp hv with hv | hv
      · exact hown.notMem v hv
      · exact (hne v hv).2

end Separate

/-! ## Added variables among each other -/

theorem nodup_map_prepend_iff {kind : String} {names : List String} :
    (names.map (kind ++ ·)).Nodup ↔ names.Nodup :=
  List.nodup_map_iff fun _ _ => (String.append_right_inj _).mp

namespace Checker

/-- The formals of checkers are told apart exactly if the globals are. -/
theorem nodup_inputs_iff (p : Permissions) (globals : List Variable) :
    ((inputs p globals).map Variable.name).Nodup ↔ (globals.map Variable.name).Nodup := by
  have hformals : ((p.domains.values.map Domain.name).map
      fun n => "__linear_" ++ n ++ "_in").Nodup :=
    p.domains_keyed.nodup_names.map fun _ _ h =>
      (String.append_right_inj _).mp ((String.append_left_inj _).mp h)
  rw [map_name_inputs, List.nodup_append, nodup_map_prepend_iff]
  refine ⟨fun h => h.2.1, fun h => ⟨hformals, h, ?_⟩⟩
  simp only [List.forall_mem_map]
  exact fun d _ g _ => formal_name_ne_oldGlobal_name d g

end Checker

/-! The locals that are added are told apart by the fourth letters of their names. -/

theorem Snapshot.letter_of_mem_shadows {globals : List Variable} {v : Variable}
    (hv : v ∈ shadows globals) : v.name.toList[3]? = some 'n' := by
  obtain ⟨g, -, rfl⟩ := List.mem_map.mp hv
  simp [shadow_name]

namespace ActionRefinement

variable {r : ActionRefinement}

theorem letter_of_mem_oldOutputs {v : Variable} (hv : v ∈ r.outputs.map oldOutput) :
    v.name.toList[3]? = some 'l' := by
  obtain ⟨o, -, rfl⟩ := List.mem_map.mp hv
  simp [oldOutput, Variable.rename]

theorem map_name_oldOutputs (r : ActionRefinement) : (r.outputs.map oldOutput).map Variable.name =
    (r.outputs.map Variable.name).map ("__old_out_" ++ ·) := by
  rw [List.map_map, List.map_map]
  rfl

end ActionRefinement

namespace Refinement

open ActionRefinement

theorem letter_of_mem_locals {r : Refinement} {v : Variable} (hv : v ∈ r.locals) :
    v.name.toList[3]? ∈ [some 'c', some 'k', some 'l'] := by
  cases r with
  | none => exact absurd hv List.not_mem_nil
  | some r =>
    rcases List.mem_cons.mp hv with rfl | hv
    · decide
    rcases List.mem_cons.mp hv with rfl | hv
    · decide
    · rw [letter_of_mem_oldOutputs hv]
      decide

/-- Flags and copies of outputs are told apart if the outputs are. -/
theorem nodup_locals {r : Refinement}
    (ho : ∀ a ∈ r, (a.outputs.map Variable.name).Nodup) : (r.locals.map Variable.name).Nodup := by
  cases r with
  | none => exact List.nodup_nil
  | some r =>
    have hne : ∀ v ∈ r.outputs.map oldOutput, pc.name ≠ v.name ∧ ok.name ≠ v.name := by
      intro v hv
      have hl := letter_of_mem_oldOutputs hv
      refine ⟨fun h => ?_, fun h => ?_⟩
      · rw [← h] at hl
        exact absurd hl (by decide)
      · rw [← h] at hl
        exact absurd hl (by decide)
    rw [locals, List.map_cons, List.map_cons, List.nodup_cons, List.nodup_cons, List.mem_cons,
      map_name_oldOutputs, nodup_map_prepend_iff, ← map_name_oldOutputs]
    refine ⟨?_, ?_, ho r rfl⟩
    · rintro (h | h)
      · exact absurd h (by decide)
      · obtain ⟨v, hv, he⟩ := List.mem_map.mp h
        exact (hne v hv).1 he.symm
    · intro h
      obtain ⟨v, hv, he⟩ := List.mem_map.mp h
      exact (hne v hv).2 he.symm

end Refinement

namespace Interference

theorem letter_of_mem_locals {i : Interference} {v : Variable} (hv : v ∈ i.locals) :
    v.name.toList[3]? = some 'e' := by
  cases i with
  | trusted => exact absurd hv List.not_mem_nil
  | checked t =>
    obtain ⟨d, -, rfl⟩ := List.mem_map.mp hv
    simp [Domain.collector]

theorem nodup_locals (s : Setting) (l : Layer) :
    ((s.interference l).locals.map Variable.name).Nodup := by
  rw [Setting.interference, Setting.interferenceBy]
  split
  · exact List.nodup_nil
  · have hn : (locals (.checked ⟨s.permissions, s.globals, Dispatcher.name l⟩)).map Variable.name =
        (s.permissions.domains.values.map Domain.name).map ("__perm_" ++ ·) := by
      rw [locals, Tracker.collectors, List.map_map, List.map_map]
      rfl
    rw [hn, nodup_map_prepend_iff]
    exact s.permissions.domains_keyed.nodup_names

end Interference

namespace Setting

variable {s : Setting} {l : Layer} {p : Program} {out : Program × LayerOutput}

/-- **The locals that are added are told apart exactly if the globals are.** -/
theorem nodup_locals_iff (s : Setting) (l : Layer) {r : Refinement}
    (ho : ∀ a ∈ r, (a.outputs.map Variable.name).Nodup) :
    ((Snapshot.shadows s.globals ++ r.locals ++ (s.interference l).locals).map
      Variable.name).Nodup ↔ (s.globals.map Variable.name).Nodup := by
  rw [List.map_append, List.map_append, List.nodup_append, List.nodup_append,
    Snapshot.map_name_shadows, nodup_map_prepend_iff, ← Snapshot.map_name_shadows]
  refine ⟨fun h => h.1.1, fun h => ⟨⟨h, Refinement.nodup_locals ho, ?_⟩,
    Interference.nodup_locals s l, ?_⟩⟩
  · simp only [List.forall_mem_map]
    intro v hv w hw he
    have hl := Refinement.letter_of_mem_locals hw
    rw [← he, Snapshot.letter_of_mem_shadows hv] at hl
    exact absurd hl (by decide)
  · rw [← List.map_append]
    simp only [List.forall_mem_map]
    intro v hv w hw he
    have hl := Interference.letter_of_mem_locals hw
    rw [← he] at hl
    rcases List.mem_append.mp hv with hv | hv
    · rw [Snapshot.letter_of_mem_shadows hv] at hl
      exact absurd hl (by decide)
    · have hr := Refinement.letter_of_mem_locals hv
      rw [hl] at hr
      exact absurd hr (by decide)

/-! ## What a layer produces -/

/-- The implementation is declared, or is a copy that has been made sequential. -/
def Produced (out : Program × LayerOutput) (i : Implementation) : Prop :=
  .implementation i ∈ out.2.declarations ∨
    ∃ name ∈ out.2.summary.transformed, out.1.implementations.get? name = some i

/-- What an implementation is made of: variables of the input, and variables that are added. -/
inductive Introduces (s : Setting) (l : Layer) (plans : List Plan) :
    Implementation → List Variable → List Variable → Prop
  | copy {plan : Plan} (h : plan ∈ concurrent l plans) :
      Introduces s l plans (Sequential.implementation { setting := s, layer := l, plan })
        plan.implementation.vars (Sequential.locals { setting := s, layer := l, plan })
  | checker {t : Subject} (ht : s.trusted = false) (h : t ∈ s.layerSubjects l plans) :
      Introduces s l plans (s.checker t).implementation t.vars s.checkerInputs
  | pending {target : String} {a : AtomicAction} (ht : s.trusted = false)
      (h : target ∈ s.facts.pendingTargets l) (ha : s.facts.actions.get? target = some a) :
      Introduces s l plans (PendingAsync.implementation s l target a) (a.inputs ++ a.outputs)
        (Snapshot.shadows s.globals ++ (s.interference l).locals)
  | dispatcher :
      Introduces s l plans (Dispatcher.implementation (s.dispatcher l)
        (Declaration.procedureNames (s.interferenceCheckers l plans))) [] s.checkerInputs

/-- The implementations that are declared if interference is trusted. -/
theorem mem_implementations_output_of_trusted (ht : s.trusted = true) {plans : List Plan}
    {contracts : Table String Procedure} {i : Implementation} :
    .implementation i ∈ (s.output l plans contracts).declarations ↔
      i = Dispatcher.implementation (s.dispatcher l)
        (Declaration.procedureNames (s.interferenceCheckers l plans)) := by
  simp [output, outputOf, interferenceCheckers, PendingAsync.declarations, ht, dispatcherDeclarations]

/-- **What is produced is made of what is introduced.** -/
theorem produced_iff {plans : List Plan} (h : s.plan l p = .ok plans)
    {i : Implementation} :
    Produced (s.transformProgram l plans p,
        s.output l plans (s.transformProgram l plans p).procedures) i ↔
      ∃ own added, s.Introduces l plans i own added := by
  have hcopy : ∀ plan ∈ concurrent l plans,
      (s.transformProgram l plans p).implementations.get? plan.name =
        some (Sequential.implementation { setting := s, layer := l, plan }) :=
    fun plan hm => (Sequential.Produces.of_concurrent h hm).result
  constructor
  · rintro (hi | ⟨name, hname, hi⟩)
    · cases ht : s.trusted with
      | true =>
        obtain rfl := (mem_implementations_output_of_trusted ht).mp hi
        exact ⟨_, _, .dispatcher⟩
      | false =>
        rcases (mem_implementations_output ht).mp hi with
          ⟨t, hts, rfl⟩ | ⟨target, htarget, a, ha, rfl⟩ | rfl
        · exact ⟨_, _, .checker ht hts⟩
        · exact ⟨_, _, .pending ht htarget ha⟩
        · rw [← procedureNames_interferenceCheckers ht]
          exact ⟨_, _, .dispatcher⟩
    · obtain ⟨plan, hm, rfl⟩ := List.mem_map.mp hname
      obtain rfl := Option.some_inj.mp (hi.symm.trans (hcopy plan hm))
      exact ⟨_, _, .copy hm⟩
  · rintro ⟨own, added, hi⟩
    cases hi with
    | copy hm => exact .inr ⟨_, List.mem_map_of_mem hm, hcopy _ hm⟩
    | checker ht hts => exact .inl ((mem_implementations_output ht).mpr (.inl ⟨_, hts, rfl⟩))
    | pending ht hm ha =>
      exact .inl ((mem_implementations_output ht).mpr (.inr (.inl ⟨_, hm, _, ha, rfl⟩)))
    | dispatcher =>
      refine .inl ?_
      cases ht : s.trusted with
      | true => exact (mem_implementations_output_of_trusted ht).mpr rfl
      | false =>
        rw [procedureNames_interferenceCheckers ht]
        exact (mem_implementations_output ht).mpr (.inr (.inr rfl))

namespace Introduces

variable {plans : List Plan} {i : Implementation} {own added : List Variable}

/-- An implementation has the variables that it takes from the input and those that are added. -/
theorem perm_vars (h : s.Introduces l plans i own added) : i.vars.Perm (own ++ added) := by
  cases h with
  | copy h =>
    refine .of_eq ?_
    simp only [Implementation.vars, Sequential.implementation, Sequential.implementationFrom,
      List.append_assoc]
  | checker ht h => exact (List.append_nil s.checkerInputs).symm ▸ List.perm_append_comm
  | pending ht h ha => exact .refl _
  | dispatcher =>
    refine .of_eq ?_
    simp only [Implementation.vars, Dispatcher.implementation, List.append_nil, List.nil_append]
    rfl

/-- Added variables are told apart exactly if the globals are. -/
theorem nodup_added_iff (h : s.Introduces l plans i own added)
    (hown : (own.map Variable.name).Nodup) :
    (added.map Variable.name).Nodup ↔ (s.globals.map Variable.name).Nodup := by
  cases h with
  | @copy plan h =>
    have ho : (plan.implementation.outputs.map Variable.name).Nodup :=
      hown.sublist (((List.sublist_append_right _ _).trans (List.sublist_append_left _ _)).map _)
    refine nodup_locals_iff s l fun r hr => ?_
    obtain ⟨a, -, rfl⟩ := Option.map_eq_some_iff.mp hr
    exact ho
  | checker ht h => exact Checker.nodup_inputs_iff s.permissions s.globals
  | pending ht h ha =>
    have hl := nodup_locals_iff s l (r := none) fun _ h => nomatch h
    rw [Refinement.locals, List.append_nil] at hl
    exact hl
  | dispatcher => exact Checker.nodup_inputs_iff s.permissions s.globals

/-- **When the variables of an implementation are told apart.** -/
theorem separate_iff (h : s.Introduces l plans i own added)
    (globals : List String) : Separate globals i.vars ↔
      Separate globals own ∧ (s.globals.map Variable.name).Nodup ∧
        ∀ v ∈ added, v.name ∉ own.map Variable.name ∧ v.name ∉ globals := by
  rw [separate_congr h.perm_vars, separate_append]
  exact and_congr_right fun ho => and_congr_left' (h.nodup_added_iff ho.nodup)

end Introduces

/-- **The names of added variables.**  What an accepted layer produces are sequential copies, the
checkers of interference and of pending work, and the dispatcher, each with variables of the input
and added ones and no others.  Its variables have different names, and none that of a global,
exactly if this holds of those of the input, the globals are told apart, and no variable of the
input and no global has the name of one that is added to the implementation. -/
theorem transform_separate_iff (h : s.transform l p = .ok out) : ∃ plans, s.plan l p = .ok plans ∧
      (∀ i, Produced out i ↔ ∃ own added, s.Introduces l plans i own added) ∧
      ∀ i own added, s.Introduces l plans i own added → i.vars.Perm (own ++ added) ∧ ∀ globals,
        (Separate globals i.vars ↔
          Separate globals own ∧ (s.globals.map Variable.name).Nodup ∧
            ∀ v ∈ added, v.name ∉ own.map Variable.name ∧ v.name ∉ globals) := by
  obtain ⟨plans, hplans, rfl⟩ := transform_eq_ok.mp h
  exact ⟨plans, hplans, fun i => produced_iff hplans,
    fun i own added hi => ⟨hi.perm_vars, hi.separate_iff⟩⟩

end Setting

/-- The counter keeps clear of what is added to it. -/
theorem Setting.transform_separate_iff_helped :
    Counter.helped.transform 1 Counter.helpedProgram = .ok Counter.helpedOut ∧
      ∃ i, Produced Counter.helpedOut i ∧ i.vars.map Variable.name =
        ["__snapshot_x", "__pc", "__ok", "__perm_D"] ∧ Separate ["x"] i.vars := by
  refine ⟨Counter.transform_helped, ?_⟩
  obtain ⟨plans, hplans, hproduced, hseparate⟩ := transform_separate_iff Counter.transform_helped
  obtain rfl := Except.ok.inj (Counter.plan_helped.symm.trans hplans)
  have hm : Counter.mainPlan ∈ concurrent 1 [Counter.mainPlan, Counter.helpPlan] :=
    List.mem_filter.mpr ⟨List.mem_cons_self, rfl⟩
  have hi := Introduces.copy (s := Counter.helped) hm
  refine ⟨_, (hproduced _).mpr ⟨_, _, hi⟩, rfl, ((hseparate _ _ _ hi).2 _).mpr ⟨?_, ?_, ?_⟩⟩
  · exact ⟨by decide, by decide⟩
  · decide
  · decide

/-! ## A local with the name of an added one -/

namespace Overlap

/-- A copy with a local that has the name of the copy of the global. -/
def copy : Implementation :=
  { name := "M_1", procedure := "M_1", locals := [{ name := "__snapshot_x", type := .int }]
    blocks := [{ label := "A", commands := [.assign ["__snapshot_x"] [.int 0]] }] }

def setting : Setting :=
  { facts := {
      globals := [{ name := "x", type := .int }]
      procedures := .ofList [("M", { kind := .mover .non, upper := 2 })] }
    copies := {
      implementations := .ofList [("M_1", ⟨"M", "M"⟩)]
      blocks := .ofList [(⟨"M_1", "A"⟩, ⟨"M", "A"⟩)] }
    yielding := ["M"] }

def program : Program :=
  { globals := [{ name := "x", type := .int }]
    procedures := .ofList [("M_1", { name := "M_1" })]
    implementations := .ofList [("M_1", copy)] }

def plan : Plan :=
  { implementation := copy
    procedure := { name := "M_1" }
    origin := ⟨"M", "M"⟩
    yielding := { kind := .mover .non, upper := 2 }
    action? := none }

theorem plan_eq : setting.plan 1 program = .ok [plan] := by
  refine Setting.plan_singleton rfl rfl (Setting.checkConcurrent_of_reducible ?_ rfl) rfl
  cbv

end Overlap

/-- The only implementation has different names, none of them that of the global, but its local has
the name of the copy of the global that is added to it. -/
theorem Setting.transform_not_separate_overlap : ∃ out j,
    Overlap.setting.transform 1 Overlap.program = .ok out ∧
      (∀ i ∈ Overlap.program.implementations.values,
        Separate (Overlap.program.globals.map Variable.name) i.vars) ∧
      Produced out j ∧ j.vars.map Variable.name = ["__snapshot_x", "__snapshot_x"] ∧
      ¬ Separate (Overlap.program.globals.map Variable.name) j.vars := by
  have hm : Overlap.plan ∈ concurrent 1 [Overlap.plan] := List.mem_singleton_self _
  have hi := Introduces.copy (s := Overlap.setting) hm
  refine ⟨_, _, transform_eq_ok.mpr ⟨_, Overlap.plan_eq, rfl⟩, fun i h => ?_,
    (produced_iff Overlap.plan_eq).mpr ⟨_, _, hi⟩, rfl, fun h => ?_⟩
  · obtain rfl := List.mem_singleton.mp h
    exact ⟨by decide, by decide⟩
  · exact absurd h.nodup (by decide)

end LayerCheck
