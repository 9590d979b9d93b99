import LayerCheck.Proofs.Aggregator
import LayerCheck.Proofs.Contract
import LayerCheck.Proofs.Interference.Coverage
import LayerCheck.Proofs.Sequential.Repeated

/-!
# Which aggregators parallel calls share

Every parallel call of a layer becomes a call of an aggregator, and among the declarations there is
one procedure under the name that is called.  It is the aggregator of the first parallel call of the
layer with that name.  If the names of callees hold no separators, calls share it exactly if they
have the same callees, and it has the contract of each of them; otherwise a name can stand for
different sequences of callees, and only the first one decides.

* `Setting.mem_declarations_iff`: which aggregator is declared under a name.
* `Sequential.WellFormed.mem_parCalls`: parallel calls of reachable blocks are replaced.
* `Sequential.Produces.aggregators_shared`: which calls share an aggregator, and what it is.
-/

namespace LayerCheck

namespace Setting

variable {s : Setting} {l : Layer} {p : Program}

/-- The parallel calls that are replaced at the layer, copy by copy. -/
def layerParCalls (s : Setting) (l : Layer) (plans : List Plan) : List ParCall :=
  (concurrent l plans).flatMap fun p => Sequential.parCalls { setting := s, layer := l, plan := p }

/-! ## Components that have been checked -/

theorem exists_fits {i : Implementation} {call : Call} (h : i.checkComponent p call = .ok ()) :
    ∃ r, ParCall.Fits p.procedures call r := by
  simp only [Implementation.checkComponent, Except.bind_eq_ok, Table.require_eq_ok] at h
  obtain ⟨r, hr, h⟩ := h
  split at h
  · simp only [Except.bind_eq_ok, checkArity_eq_ok] at h
    obtain ⟨-, hin, hout⟩ := h
    exact ⟨r, hr, hin, hout⟩
  · cases h

theorem checkComponent_of_checkBlock {i : Implementation} {b : Block}
    (h : s.checkBlock l p i b = .ok ()) {c : ParCall} (hc : .par c ∈ b.commands) :
    ∀ call ∈ c.calls, i.checkComponent p call = .ok () := by
  rw [checkBlock] at h
  split at h
  · obtain ⟨⟨⟩, -, hcs⟩ := Except.bind_eq_ok.mp h
    exact Except.forM_eq_ok.mp (Except.forM_eq_ok.mp hcs _ hc)
  · exact Except.forM_eq_ok.mp (Except.forM_eq_ok.mp h _ hc)

/-! ## Names of declarations

Aggregators, checkers of pending work, and the checkers of interference with their dispatcher are
told apart by the second letter of their names. -/

theorem getElem?_append {t u : String} {n : Nat} (h : n < t.toList.length) :
    (t ++ u).toList[n]? = t.toList[n]? := by
  rw [String.toList_append, List.getElem?_append_left h]

theorem getElem?_aggregatorName (c : ParCall) : c.aggregatorName.toList[1]? = some 'a' := by
  have hk : 1 < "ParallelCall".toList.length := by decide
  rw [ParCall.toList_aggregatorName, List.getElem?_append_left hk]
  decide

theorem getElem?_pendingName (target : String) (l : Layer) :
    (PendingAsync.checkerName target l).toList[1]? = some 'e' := by
  have hn : PendingAsync.checkerName target l =
      "PendingAsyncNoninterferenceChecker_" ++ (target ++ "_" ++ toString l) := by
    rw [← String.append_assoc, ← String.append_assoc]
    rfl
  rw [hn, getElem?_append (by decide)]
  decide

section Declared

variable {plans : List Plan} {d : Declaration}

theorem letter_of_mem_interferenceCheckers (hd : d ∈ s.interferenceCheckers l plans) :
    d.name.toList[1]? = some 'o' := by
  rw [interferenceCheckers] at hd
  split at hd
  · exact absurd hd List.not_mem_nil
  · obtain ⟨t, -, ht⟩ := List.mem_flatMap.mp hd
    have hn : d.name = t.kind ++ t.name := by
      rw [← t.checkerName_eq]
      rcases List.mem_cons.mp ht with rfl | ht
      · rfl
      · rw [List.mem_singleton.mp ht]
        rfl
    rw [hn, getElem?_append (by cases t <;> (simp only [Subject.kind]; decide))]
    cases t <;> (simp only [Subject.kind]; decide)

theorem letter_of_mem_dispatcherDeclarations {names : List String}
    (hd : d ∈ s.dispatcherDeclarations l names) : d.name.toList[1]? = some 'o' := by
  have hn : d.name = "NoninterferenceDispatcher_" ++ toString l := by
    rcases List.mem_cons.mp hd with rfl | hd
    · rfl
    · rw [List.mem_singleton.mp hd]
      rfl
  rw [hn, getElem?_append (by decide)]
  decide

theorem letter_of_mem_pending (hd : d ∈ PendingAsync.declarations s l) :
    d.name.toList[1]? = some 'e' := by
  rw [PendingAsync.declarations] at hd
  split at hd
  · exact absurd hd List.not_mem_nil
  · obtain ⟨target, -, ht⟩ := List.mem_flatMap.mp hd
    split at ht
    · exact absurd ht List.not_mem_nil
    · rw [← getElem?_pendingName target l]
      rcases List.mem_cons.mp ht with rfl | ht
      · rfl
      · rw [List.mem_singleton.mp ht]
        rfl

theorem letter_of_mem_aggregators {contracts : Table String Procedure}
    (hd : d ∈ (s.aggregators l plans contracts).values.map Declaration.procedure) :
    d.name.toList[1]? = some 'a' := by
  obtain ⟨r, hr, rfl⟩ := List.mem_map.mp hd
  obtain ⟨name, hname⟩ := Table.mem_values.mp hr
  rw [aggregators, Aggregator.get?_table, Option.map_eq_some_iff] at hname
  obtain ⟨c, -, rfl⟩ := hname
  exact getElem?_aggregatorName c

/-- Short names are not among those that are declared. -/
theorem exists_letter_of_mem_output {contracts : Table String Procedure}
    (hd : d ∈ (s.output l plans contracts).declarations) : ∃ c, d.name.toList[1]? = some c := by
  simp only [output, outputOf, List.mem_append] at hd
  rcases hd with ((hd | hd) | hd) | hd
  · exact ⟨_, letter_of_mem_interferenceCheckers hd⟩
  · exact ⟨_, letter_of_mem_aggregators hd⟩
  · exact ⟨_, letter_of_mem_pending hd⟩
  · exact ⟨_, letter_of_mem_dispatcherDeclarations hd⟩

end Declared

/-- **Under the name of an aggregator only aggregators are declared.** -/
theorem mem_declarations_iff {plans : List Plan} {contracts : Table String Procedure}
    {c : ParCall} {a : Procedure} (ha : a.name = c.aggregatorName) :
    .procedure a ∈ (s.output l plans contracts).declarations ↔
      (s.aggregators l plans contracts).get? c.aggregatorName = some a := by
  have hletter : (Declaration.procedure a).name.toList[1]? = some 'a' := by
    rw [Declaration.name, ha]
    exact getElem?_aggregatorName c
  have hchecker : .procedure a ∉ s.interferenceCheckers l plans := fun h =>
    absurd (hletter.symm.trans (letter_of_mem_interferenceCheckers h)) (by decide)
  have hpending : .procedure a ∉ PendingAsync.declarations s l := fun h =>
    absurd (hletter.symm.trans (letter_of_mem_pending h)) (by decide)
  have hdispatcher : ∀ names, .procedure a ∉ s.dispatcherDeclarations l names := fun _ h =>
    absurd (hletter.symm.trans (letter_of_mem_dispatcherDeclarations h)) (by decide)
  have haggr : .procedure a ∈ (s.aggregators l plans contracts).values.map Declaration.procedure ↔
      (s.aggregators l plans contracts).get? c.aggregatorName = some a := by
    rw [← ha]
    refine Iff.trans ?_ Aggregator.mem_values_table_iff
    rw [List.mem_map]
    constructor
    · intro hx
      obtain ⟨b, hb, he⟩ := hx
      cases he
      exact hb
    · exact fun h => ⟨a, h, rfl⟩
  simp only [output, outputOf, List.mem_append, hchecker, hpending, hdispatcher, or_false, false_or,
    haggr]

end Setting

namespace Sequential

variable {q : Sequential}

/-- **The parallel calls of reachable blocks are replaced.** -/
theorem WellFormed.mem_parCalls (h : q.WellFormed) {d : Block} (hd : d ∈ q.source.blocks)
    (hr : q.source.Reachable d.label) {c : ParCall} (hc : .par c ∈ d.commands) :
    c ∈ q.parCalls := by
  obtain ⟨b, hb, rest, hbc⟩ := h.exists_head hd hr hc rfl
  have hl : b.label ∉ q.headers := by
    intro hl
    have := h.plain_of_mem_headers hb hl _ (hbc ▸ List.mem_cons_self)
    exact absurd this (by simp [Command.isPreemption])
  refine mem_parCalls_iff.mpr ⟨q.openBlock b, ?_, rest, ?_⟩
  · rw [opened_eq h.nodup_base]
    exact List.mem_map_of_mem hb
  · rw [commands_openBlock, openCommands, if_neg hl, hbc]

theorem mem_afterParCall {inLoop : Bool} {c : ParCall} {rest : List Command} :
    .call c.aggregatorCall ∈ q.afterParCall inLoop c rest := by
  simp [afterParCall]

namespace Produces

variable {p : Program} {out : Program × LayerOutput} {j : Implementation}

/-- Every component of a parallel call has a callee that takes what it passes. -/
theorem exists_components_of_mem (h : q.Produces p out j) {b : Block} (hb : b ∈ q.source.blocks)
    {c : ParCall} (hc : .par c ∈ b.commands) :
    ∃ rs, List.Forall₂ (ParCall.Fits out.1.procedures) c.calls rs := by
  obtain ⟨name, origin, hp⟩ := h.exists_planned
  obtain ⟨-, -, -, hblocks⟩ := Setting.checkConcurrent_eq_ok (hp.concurrent h.concurrent)
  have hcalls := Setting.checkComponent_of_checkBlock (hblocks b hb) hc
  obtain ⟨plans, -, ho⟩ := Setting.transform_eq_ok.mp h.accepted
  have hfits : ∀ call ∈ c.calls, ∃ r, ParCall.Fits out.1.procedures call r := by
    intro call hcall
    obtain ⟨r, hr, hin, hout⟩ := Setting.exists_fits (hcalls call hcall)
    obtain ⟨r', hr', hin', hout'⟩ := Setting.exists_contract q.setting q.layer plans hr
    rw [ho]
    exact ⟨r', hr', by rw [hin', hin], by rw [hout', hout]⟩
  exact List.exists_forall₂ hfits

theorem exists_components (h : q.Produces p out j) {c : ParCall} (hc : c ∈ q.parCalls) :
    ∃ rs, List.Forall₂ (ParCall.Fits out.1.procedures) c.calls rs := by
  obtain ⟨b, hb, hbc⟩ := mem_source_of_mem_parCalls hc
  exact h.exists_components_of_mem hb hbc

/-- The parallel calls of a copy are among those of the layer. -/
theorem mem_layerParCalls (h : q.Produces p out j) {plans : List Plan}
    (hp : q.setting.plan q.layer p = .ok plans) {c : ParCall} (hc : c ∈ q.parCalls) :
    c ∈ q.setting.layerParCalls q.layer plans := by
  obtain ⟨plans', hp', hm⟩ := h.planned
  rw [hp] at hp'
  cases hp'
  refine List.mem_flatMap.mpr ⟨q.plan, List.mem_filter.mpr ⟨hm, ?_⟩, hc⟩
  rw [h.concurrent]
  rfl

/-- Every component of every parallel call of the layer has a callee that takes what it passes. -/
theorem exists_components_of_layer (h : q.Produces p out j) {plans : List Plan}
    (hp : q.setting.plan q.layer p = .ok plans) {c : ParCall}
    (hc : c ∈ q.setting.layerParCalls q.layer plans) :
    ∃ rs, List.Forall₂ (ParCall.Fits out.1.procedures) c.calls rs := by
  obtain ⟨plan, hplan, hc⟩ := List.mem_flatMap.mp hc
  rw [h.out_eq hp]
  exact (of_concurrent hp hplan).exists_components hc

/-- The first parallel call of the layer whose aggregator has the name. -/
theorem exists_find? (h : q.Produces p out j) {plans : List Plan}
    (hp : q.setting.plan q.layer p = .ok plans) {c : ParCall} (hc : c ∈ q.parCalls) :
    ∃ d ∈ q.setting.layerParCalls q.layer plans,
      (q.setting.layerParCalls q.layer plans).find?
        (fun d => d.aggregatorName = c.aggregatorName) = some d ∧
      d.aggregatorName = c.aggregatorName := by
  have hsome : ((q.setting.layerParCalls q.layer plans).find?
      fun d => d.aggregatorName = c.aggregatorName).isSome :=
    List.find?_isSome.mpr ⟨c, h.mem_layerParCalls hp hc, by simp⟩
  obtain ⟨d, hd⟩ := Option.isSome_iff_exists.mp hsome
  exact ⟨d, List.mem_of_find?_eq_some hd, hd, by simpa using List.find?_some hd⟩

/-- Its aggregator is the only procedure that is declared under the name. -/
theorem declared_iff (h : q.Produces p out j) {plans : List Plan}
    (hp : q.setting.plan q.layer p = .ok plans) {c d : ParCall}
    (hd : (q.setting.layerParCalls q.layer plans).find?
      (fun d => d.aggregatorName = c.aggregatorName) = some d)
    (hname : d.aggregatorName = c.aggregatorName) (b : Procedure) :
    .procedure b ∈ out.2.declarations ∧ b.name = c.aggregatorCall.callee ↔
      b = d.aggregator out.1.procedures q.globals := by
  have hget : (q.setting.aggregators q.layer plans out.1.procedures).get? c.aggregatorName =
      some (d.aggregator out.1.procedures q.globals) := by
    rw [Setting.aggregators, Aggregator.get?_table]
    exact congrArg (Option.map _) hd
  have hdecl : out.2 = q.setting.output q.layer plans out.1.procedures := by rw [h.out_eq hp]
  rw [hdecl]
  constructor
  · intro hx
    obtain ⟨hb, hn⟩ := hx
    rw [Setting.mem_declarations_iff hn, hget, Option.some_inj] at hb
    exact hb.symm
  · rintro rfl
    exact ⟨(Setting.mem_declarations_iff hname).mpr hget, hname⟩

/-- Calls with the callees of another one are served by its aggregator. -/
theorem aggregatedBy_of_calleeNames_eq (h : q.Produces p out j) {c d : ParCall}
    (hc : c ∈ q.parCalls) (he : c.calleeNames = d.calleeNames) :
    c.AggregatedBy out.1.procedures q.globals (d.aggregator out.1.procedures q.globals) := by
  obtain ⟨rs, hrs⟩ := h.exists_components hc
  rw [← ParCall.aggregator_congr he]
  exact ParCall.aggregatedBy_aggregator hrs

/-- **Parallel calls share an aggregator exactly if the joined names of their callees agree.**
Every parallel call of a layer is replaced by a call of an aggregator, and there is one procedure
under that name: the aggregator of the first parallel call of the layer with that name.  If the
names of callees hold no separator, sharing is having the same callees, and the aggregator has the
formals and the contract of the components of each call that names it. -/
theorem aggregators_shared {q' : Sequential} {j' : Implementation} (h : q.Produces p out j)
    (h' : q'.Produces p out j') {c c' : ParCall} (hc : c ∈ q.parCalls) (hc' : c' ∈ q'.parCalls) :
    (∃ b ∈ j.blocks, .call c.aggregatorCall ∈ b.commands) ∧
    (∃ b ∈ j'.blocks, .call c'.aggregatorCall ∈ b.commands) ∧
    c.ReplacedBy c.aggregatorCall ∧ c'.ReplacedBy c'.aggregatorCall ∧
    (c.aggregatorCall.callee = c'.aggregatorCall.callee ↔
      ParCall.joined c.calleeNames = ParCall.joined c'.calleeNames) ∧
    (c.Separable → c'.Separable → (c.aggregatorCall.callee = c'.aggregatorCall.callee ↔
      c.calleeNames = c'.calleeNames)) ∧
    ∃ plans d a, q.setting.plan q.layer p = .ok plans ∧
      (q.setting.layerParCalls q.layer plans).find?
        (fun d => d.aggregatorName = c.aggregatorName) = some d ∧
      (∀ b, .procedure b ∈ out.2.declarations ∧ b.name = c.aggregatorCall.callee ↔ b = a) ∧
      d.AggregatedBy out.1.procedures q.globals a ∧
      (c.calleeNames = d.calleeNames → c.AggregatedBy out.1.procedures q.globals a) ∧
      ((∀ e ∈ q.setting.layerParCalls q.layer plans, e.Separable) →
        c.AggregatedBy out.1.procedures q.globals a) := by
  obtain ⟨b, hb, inLoop, rest, hbc⟩ := exists_aggregatorCall hc
  obtain ⟨b', hb', inLoop', rest', hbc'⟩ := exists_aggregatorCall hc'
  refine ⟨⟨b, h.eq_implementation ▸ hb, hbc ▸ mem_afterParCall⟩,
    ⟨b', h'.eq_implementation ▸ hb', hbc' ▸ mem_afterParCall⟩, c.replacedBy_aggregatorCall,
    c'.replacedBy_aggregatorCall, ParCall.aggregatorName_eq_iff,
    ParCall.aggregatorName_eq_iff_of_separable, ?_⟩
  obtain ⟨plans, hp, -⟩ := h.planned
  obtain ⟨d, hdm, hd, hname⟩ := h.exists_find? hp hc
  obtain ⟨rs, hrs⟩ := h.exists_components_of_layer hp hdm
  refine ⟨plans, d, d.aggregator out.1.procedures q.globals, hp, hd, h.declared_iff hp hd hname,
    ParCall.aggregatedBy_aggregator hrs, h.aggregatedBy_of_calleeNames_eq hc, fun hall => ?_⟩
  have hsep := ParCall.aggregatorName_eq_iff_of_separable (hall c (h.mem_layerParCalls hp hc))
    (hall d hdm)
  exact h.aggregatedBy_of_calleeNames_eq hc (hsep.mp hname.symm)

end Produces

end Sequential

namespace Counter

def single : ParCall := { id := 2, calls := [{ id := 4, callee := "Work" }] }

def double : ParCall :=
  { id := 5, calls := [{ id := 6, callee := "Work" }, { id := 7, callee := "Work" }] }

/-- Two parallel calls one after the other, of one and of two threads. -/
def calls : List Block :=
  [{ label := "A", commands := [.par single, .par double], transfer := .goto ["H"] },
    { label := "H" }]

theorem exists_produces_calls : ∃ out,
    (sequential calls).Produces (program calls) out (sequential calls).implementation := by
  refine exists_produces rfl (Setting.checkConcurrent_of_reducible ?_ rfl)
  cbv

theorem mem_parCalls_calls {c : ParCall} (hc : .par c ∈ [Command.par single, .par double]) :
    c ∈ (sequential calls).parCalls := by
  obtain ⟨out, h⟩ := exists_produces_calls
  have hn : (copy calls).labels.Nodup := by decide
  have hf : setting.copies.Faithful (copy calls) := by
    intro r hr _
    rw [List.mem_singleton.mp hr]
    decide
  exact (h.wellFormed hn hf).mem_parCalls List.mem_cons_self ⟨"A", rfl, .refl⟩ hc

end Counter

/-- The two calls have aggregators of their own. -/
theorem Sequential.aggregators_shared_counter : ∃ out,
    (Counter.sequential Counter.calls).Produces (Counter.program Counter.calls) out
      (Counter.sequential Counter.calls).implementation ∧
    Counter.single ∈ (Counter.sequential Counter.calls).parCalls ∧
    Counter.double ∈ (Counter.sequential Counter.calls).parCalls ∧
    Counter.single.aggregatorCall.callee ≠ Counter.double.aggregatorCall.callee ∧
    ∃ a, .procedure a ∈ out.2.declarations ∧ a.name = Counter.single.aggregatorCall.callee := by
  obtain ⟨out, h⟩ := Counter.exists_produces_calls
  have hsingle := Counter.mem_parCalls_calls (c := Counter.single) (by simp)
  have hdouble := Counter.mem_parCalls_calls (c := Counter.double) (by simp)
  obtain ⟨-, -, -, -, hjoined, -, plans, d, a, -, -, ha, -⟩ :=
    h.aggregators_shared h hsingle hdouble
  refine ⟨out, h, hsingle, hdouble, fun he => ?_, a, (ha a).mpr rfl⟩
  exact absurd (hjoined.mp he) (by decide)

end LayerCheck
