import LayerCheck.Proofs.Expr.Subst
import LayerCheck.Proofs.Program.Exec
import LayerCheck.Refinement

/-!
# The meaning of the checks of refinement

As long as the copies of globals and outputs hold the values from the beginning of the step, the
expressions of the checks say what they are meant to say: that the step changes nothing, and that it
performs the action.

* `AtomicAction.Performs`: two states are related by the transition of the action.
* `ActionRefinement.Tracks`: the copies are those of the beginning of the step.
* `Refinement.passes_assertStep`, `Refinement.passes_assertLoop`, `Refinement.of_runs_endStep`: what
  the commands say.
-/

namespace LayerCheck

open Interpretation Command

variable {M : Interpretation}

/-- The variables have the same values in both states. -/
def Keeps (vars : List Variable) (start stop : M.State) : Prop :=
  ∀ v ∈ vars, stop v.name = start v.name

namespace AtomicAction

/-- The state in which the formals of the action have the values of those of the implementation, by
position. -/
def view (a : AtomicAction) (i : Implementation) (s : M.State) : M.State :=
  setAll (setAll s (a.inputs.map Variable.name) (i.inputs.map fun v => s v.name))
    (a.outputs.map Variable.name) (i.outputs.map fun v => s v.name)

/-- The action leads from one state to the other. What its transition reads in the old state are
the globals; formals have one value. -/
def Performs (a : AtomicAction) (i : Implementation) (globals : List Variable)
    (start stop : M.State) : Prop :=
  M.Holds (a.transition.eval (a.view i stop) fun x =>
    if x ∈ globals.map Variable.name then start x else a.view i stop x)

end AtomicAction

/-! ## Snapshots and conjunctions -/

theorem Snapshot.shadow_name (g : Variable) : (shadow g).name = "__snapshot_" ++ g.name := rfl

theorem Snapshot.get?_subst (globals : List Variable) (x : String) :
    (subst globals).get? x =
      if x ∈ globals.map Variable.name then some (.var ("__snapshot_" ++ x)) else none :=
  Subst.get?_renaming ("__snapshot_" ++ ·) globals x

theorem Interpretation.Standard.holds_conj (hM : M.Standard) {cur pre : M.State} (es : List Expr) :
    M.Holds ((Expr.conj es).eval cur pre) ↔ ∀ e ∈ es, M.Holds (e.eval cur pre) := by
  have hfold : ∀ (es : List Expr) (e : Expr), M.Holds ((es.foldl Expr.and e).eval cur pre) ↔
      M.Holds (e.eval cur pre) ∧ ∀ d ∈ es, M.Holds (d.eval cur pre) := by
    intro es
    induction es with
    | nil => simp
    | cons d es ih =>
      intro e
      rw [List.foldl_cons, ih, Expr.and, Expr.eval, hM.and, List.forall_mem_cons, and_assoc]
  cases es with
  | nil => simp [Expr.conj, Expr.eval, Interpretation.Holds]
  | cons e es => rw [Expr.conj, hfold, List.forall_mem_cons]

/-! ## Expressions -/

namespace ActionRefinement

variable {r : ActionRefinement} {start s pre : M.State}

/-- The copies of globals and outputs hold the values from the beginning of the step. -/
structure Tracks (r : ActionRefinement) (start s : M.State) : Prop where
  globals : ∀ g ∈ r.globals, s (Snapshot.shadow g).name = start g.name
  outputs : ∀ o ∈ r.outputs, s (oldOutput o).name = start o.name

namespace Tracks

theorem holds_unchangedGlobals? (h : r.Tracks start s) (hM : M.Standard) :
    (∀ e ∈ r.unchangedGlobals?.toList, M.Holds (e.eval s pre)) ↔ Keeps r.globals start s := by
  have hentries : (∀ e ∈ (Snapshot.subst r.globals).entries,
      M.Holds ((Expr.eq (.var e.1) e.2).eval s pre)) ↔ Keeps r.globals start s := by
    simp only [Prod.forall, ← Table.get?_eq_some_iff, Snapshot.get?_subst]
    constructor
    · intro hall g hg
      have he := hall g.name (.var ("__snapshot_" ++ g.name))
        (if_pos (List.mem_map_of_mem hg))
      rw [Expr.eq, Expr.eval, hM.eq, Expr.eval, Expr.eval] at he
      rw [he, ← Snapshot.shadow_name, h.globals g hg]
    · intro hk x e he
      split at he
      · rename_i hx
        obtain ⟨g, hg, rfl⟩ := List.mem_map.mp hx
        obtain rfl := Option.some_inj.mp he
        rw [Expr.eq, Expr.eval, hM.eq, Expr.eval, Expr.eval, hk g hg, ← Snapshot.shadow_name,
          h.globals g hg]
      · cases he
  rw [unchangedGlobals?, ← hentries]
  cases he : (Snapshot.subst r.globals).entries with
  | nil => simp [Table.isEmpty, he]
  | cons e es =>
    simp only [Table.isEmpty, he, List.isEmpty_cons, Bool.false_eq_true, if_false,
      Option.toList_some, List.mem_singleton, forall_eq, hM.holds_conj, List.forall_mem_map]

theorem holds_unchangedOutputs? (h : r.Tracks start s) (hM : M.Standard) :
    (∀ e ∈ r.unchangedOutputs?.toList, M.Holds (e.eval s pre)) ↔ Keeps r.outputs start s := by
  have hall : (∀ o ∈ r.outputs, M.Holds ((Expr.eq o.expr (oldOutput o).expr).eval s pre)) ↔
      Keeps r.outputs start s := by
    refine forall₂_congr fun o ho => ?_
    rw [Expr.eq, Expr.eval, hM.eq, Variable.expr, Variable.expr, Expr.eval, Expr.eval,
      h.outputs o ho]
  rw [unchangedOutputs?, ← hall]
  cases ho : r.outputs with
  | nil => simp
  | cons o os =>
    simp only [List.isEmpty_cons, Bool.false_eq_true, if_false, Option.toList_some,
      List.mem_singleton, forall_eq, hM.holds_conj, List.forall_mem_map]

theorem holds_globals (h : r.Tracks start s) (hM : M.Standard) :
    M.Holds ((r.unchangedGlobals?.getD (.bool true)).eval s pre) ↔ Keeps r.globals start s := by
  have he : (∀ e ∈ r.unchangedGlobals?.toList, M.Holds (e.eval s pre)) ↔
      Keeps r.globals start s := h.holds_unchangedGlobals? hM
  rw [← he]
  cases r.unchangedGlobals? with
  | none => simp [Expr.eval, Interpretation.Holds]
  | some e => simp

/-- **The check for no change means that globals and outputs are what they were.** -/
theorem holds_unchanged (h : r.Tracks start s) (hM : M.Standard) :
    M.Holds (r.unchanged.eval s pre) ↔ Keeps (r.globals ++ r.outputs) start s := by
  rw [unchanged, hM.holds_conj, List.forall_mem_append, h.holds_unchangedGlobals? hM,
    h.holds_unchangedOutputs? hM, Keeps, Keeps, Keeps, List.forall_mem_append]

end Tracks

variable {globals : List Variable} {i : Implementation} {a : AtomicAction}

/-- **The transition means that the action leads from the beginning of the step to its end.** -/
theorem Tracks.holds_transition (h : (ofAction globals i a).Tracks start s) :
    M.Holds ((ofAction globals i a).transition.eval s pre) ↔ a.Performs i globals start s := by
  have henv : Subst.env ((Subst.ofFormals a.inputs (i.inputs.map Variable.expr)).insertAll
      ((a.outputs.map Variable.name).zip (i.outputs.map Variable.expr))) s pre = a.view i s := by
    rw [Subst.env_insertAll, Subst.env_ofFormals,
      AtomicAction.view, List.map_map, List.map_map]
    rfl
  rw [ofAction, Expr.eval_substOld, AtomicAction.Performs]
  have hcur : ∀ (r : Replacement), r.env false s pre = Subst.env r.current s pre := fun _ => rfl
  rw [hcur, henv]
  have hpre : Replacement.env
      { current := (Subst.ofFormals a.inputs (i.inputs.map Variable.expr)).insertAll
          ((a.outputs.map Variable.name).zip (i.outputs.map Variable.expr)),
        past? := some (Snapshot.subst globals) } true s pre =
      fun x => if x ∈ globals.map Variable.name then start x else a.view i s x := by
    funext x
    rw [← henv, Replacement.env, Replacement.get?,
      if_pos rfl, Option.bind_some, Snapshot.get?_subst]
    by_cases hx : x ∈ globals.map Variable.name
    · obtain ⟨g, hg, rfl⟩ := List.mem_map.mp hx
      rw [if_pos hx, if_pos hx, Option.some_or]
      exact h.globals g hg
    · rw [if_neg hx, if_neg hx, Option.none_or]
      rfl
  rw [hpre]

end ActionRefinement

/-! ## Commands -/

namespace Refinement

open ActionRefinement

variable {globals : List Variable} {i : Implementation} {a : AtomicAction}
  {σ : Surroundings M} {start s t : M.State} {cs : List Command}

/-- **The check of a step**: it performs the action or changes nothing, and changes nothing once
some step has changed the globals. -/
theorem passes_assertStep (hM : M.Standard) (h : (ofAction globals i a).Tracks start s) :
    Passes σ (assertStep (some (ofAction globals i a)) ++ cs) s ↔
      ((M.Holds (s pc.name) ∨ Keeps (globals ++ i.outputs) start s) ∨
          a.Performs i globals start s) ∧
        (M.Holds (s pc.name) → Keeps (globals ++ i.outputs) start s) ∧ Passes σ cs s := by
  rw [assertStep, List.cons_append, List.cons_append, List.nil_append, passes_assert_cons,
    passes_assert_cons, Expr.or, Expr.or, Expr.implies, Expr.eval, Expr.eval, Expr.eval, hM.or,
    hM.or, hM.implies, h.holds_unchanged hM, h.holds_transition]
  rfl

/-- **The check of a step of a yielding loop**: it changes nothing. -/
theorem passes_assertLoop (hM : M.Standard) (h : (ofAction globals i a).Tracks start s) :
    Passes σ (assertLoopGlobals (some (ofAction globals i a)) ++
        assertLoopOutputs (some (ofAction globals i a)) ++ cs) s ↔
      Keeps (globals ++ i.outputs) start s ∧ Passes σ cs s := by
  rw [assertLoopGlobals, assertLoopOutputs, List.append_assoc, passes_asserts, passes_asserts,
    h.holds_unchangedGlobals? hM, h.holds_unchangedOutputs? hM, ← and_assoc, Keeps, Keeps, Keeps,
    List.forall_mem_append]
  rfl

/-- **The account of a step**: a change of the globals and the action are noted. -/
theorem of_runs_endStep (hM : M.Standard) (h : (ofAction globals i a).Tracks start s)
    (hr : Runs σ (endStep (some (ofAction globals i a))) s t) :
    (M.Holds (t pc.name) ↔ (Keeps globals start s → M.Holds (s pc.name))) ∧
      (M.Holds (t ok.name) ↔ M.Holds (s ok.name) ∨ a.Performs i globals start s) ∧
      ∀ x, x ≠ pc.name → x ≠ ok.name → t x = s x := by
  rw [endStep, setFlags, runs_singleton, Step, List.map_cons, List.map_cons, List.map_nil,
    setAll, setAll, setAll_nil] at hr
  subst hr
  have hne : pc.name ≠ ok.name := by decide
  refine ⟨?_, ?_, fun x hp ho => ?_⟩
  · rw [Function.update_of_ne hne, Function.update_self, Expr.implies, Expr.eval, hM.implies,
      h.holds_globals hM]
    rfl
  · rw [Function.update_self, Expr.or, Expr.eval, hM.or, h.holds_transition]
    rfl
  · rw [Function.update_of_ne ho, Function.update_of_ne hp]

/-- **The account of a marked step**: nothing may have been done before it, and it counts as having
done everything. -/
theorem of_runs_endMarkedStep (hM : M.Standard) {r : ActionRefinement}
    (hr : Runs σ (endMarkedStep (some r)) s t) :
    ¬ M.Holds (s pc.name) ∧ M.Holds (t pc.name) ∧ M.Holds (t ok.name) := by
  obtain ⟨m, ⟨hpc, hm⟩, ht⟩ := hr
  have ht : t = Function.update (Function.update m pc.name (M.bool true)) ok.name
      (M.bool true) := runs_singleton.mp ht
  have hne : pc.name ≠ ok.name := by decide
  refine ⟨hM.not.mp hpc, ?_, ?_⟩
  · rw [ht, Function.update_of_ne hne, Function.update_self]
    rfl
  · rw [ht, Function.update_self]
    rfl

/-- **The check at a return**: the action has been performed, by this step at the latest. -/
theorem passes_assertReturn (hM : M.Standard) (h : (ofAction globals i a).Tracks start s) :
    Passes σ (endStep (some (ofAction globals i a)) ++
        (assertReturn (some (ofAction globals i a)) ++ cs)) s ↔
      (M.Holds (s ok.name) ∨ a.Performs i globals start s) ∧
        ∀ t, Runs σ (endStep (some (ofAction globals i a))) s t → Passes σ cs t := by
  have hend : Passes σ (endStep (some (ofAction globals i a))) s :=
    ⟨fun _ _ h => (by cases h), fun _ _ => trivial⟩
  obtain ⟨t, ht⟩ : ∃ t, Runs σ (endStep (some (ofAction globals i a))) s t :=
    ⟨_, runs_singleton.mpr rfl⟩
  have hok : ∀ t, Runs σ (endStep (some (ofAction globals i a))) s t →
      (M.Holds (t ok.name) ↔ M.Holds (s ok.name) ∨ a.Performs i globals start s) := fun _ ht =>
    (of_runs_endStep hM h ht).2.1
  rw [passes_append, and_iff_right hend]
  simp only [assertReturn, List.cons_append, List.nil_append, passes_assert_cons]
  constructor
  · exact fun hp => ⟨(hok t ht).mp (hp t ht).1, fun u hu => (hp u hu).2⟩
  · exact fun hp u hu => ⟨(hok u hu).mpr hp.1, hp.2 u hu⟩

/-- **The checks of the step that ends with a return**, one after the other. -/
theorem passes_returning (hM : M.Standard) (h : (ofAction globals i a).Tracks start s) :
    Passes σ (assertStep (some (ofAction globals i a)) ++ endStep (some (ofAction globals i a)) ++
        assertReturn (some (ofAction globals i a)) ++ cs) s ↔
      ((M.Holds (s pc.name) ∨ Keeps (globals ++ i.outputs) start s) ∨
          a.Performs i globals start s) ∧
        (M.Holds (s pc.name) → Keeps (globals ++ i.outputs) start s) ∧
        (M.Holds (s ok.name) ∨ a.Performs i globals start s) ∧
        ∀ t, Runs σ (endStep (some (ofAction globals i a))) s t → Passes σ cs t := by
  rw [List.append_assoc, List.append_assoc, passes_assertStep hM h, passes_assertReturn hM h]

end Refinement

end LayerCheck
