import LayerCheck.Proofs.Sequential.Executions

/-!
# Where the action takes effect

The flags of a refinement judge a series of fragments.  Each fragment begins with new copies of
globals and outputs, runs any code that keeps the inputs and what has been added, passes the check
of a step and is accounted for; other threads then change the globals at will.  If the last fragment
also passes the check of a return, one fragment performs the action, the ones before it leave the
globals alone, and the ones after it leave globals and outputs alone.

`pc` does not see a change of the outputs alone, so several fragments may perform an action that
leaves the globals alone.  The last of them is the one where the action takes effect.

* `ActionRefinement.Round`: one fragment with its copies, its check and its account.
* `ActionRefinement.Protocol`: a series of fragments that is judged.
* `Accounted.exists_split`: the account of a series splits it.
* `ActionRefinement.Protocol.exists_linearization`: where the action takes effect.
-/

namespace LayerCheck

open Interpretation Command

variable {M : Interpretation}

/-! ## The account of a series -/

namespace Accounted

variable {Still Steady Performs : Fragment M → Prop} {pc ok : Prop} {fs : List (Fragment M)}

/-- **The account splits a series** at a fragment that performs the action, unless the action has
been performed before and nothing happens any more. -/
theorem exists_split (h : Accounted Still Steady Performs pc ok fs)
    (hen : ∀ f ∈ fs, f.entering = false) (hsteady : ∀ f, Still f → Steady f) (hpc : ¬ pc) :
    (∃ before f after, fs = before ++ f :: after ∧ Performs f ∧ (∀ g ∈ before, Steady g) ∧
        ∀ g ∈ after, Still g) ∨
      (ok ∧ ∀ f ∈ fs, Still f) := by
  induction h with
  | @last pc ok f _ hs _ ho =>
    by_cases hf : Performs f
    · exact .inl ⟨[], f, [], rfl, hf, List.forall_mem_nil _, List.forall_mem_nil _⟩
    · have hstill := (hs.resolve_right hf).resolve_left hpc
      exact .inr ⟨ho.resolve_right hf, List.forall_mem_singleton.mpr hstill⟩
  | @still pc ok f fs hs _ ih =>
    rcases ih (List.forall_mem_cons.mp hen).2 hpc with ⟨before, g, after, rfl, hg, hb, ha⟩ | hall
    · exact .inl ⟨f :: before, g, after, rfl, hg, List.forall_mem_cons.mpr ⟨hsteady f hs, hb⟩, ha⟩
    · exact .inr ⟨hall.1, List.forall_mem_cons.mpr ⟨hs, hall.2⟩⟩
  | @noted pc ok pc' ok' f fs _ hs _ hpc' hok' h ih =>
    by_cases hf : Steady f
    · have hunset : ¬ pc' := fun hp => hpc (hpc'.mp hp hf)
      rcases ih (List.forall_mem_cons.mp hen).2 hunset with
        ⟨before, g, after, rfl, hg, hb, ha⟩ | hall
      · exact .inl ⟨f :: before, g, after, rfl, hg, List.forall_mem_cons.mpr ⟨hf, hb⟩, ha⟩
      · by_cases hperf : Performs f
        · exact .inl ⟨[], f, fs, rfl, hperf, List.forall_mem_nil _, hall.2⟩
        · have hstill := (hs.resolve_right hperf).resolve_left hpc
          exact .inr ⟨(hok'.mp hall.1).resolve_right hperf,
            List.forall_mem_cons.mpr ⟨hstill, hall.2⟩⟩
    · -- The globals change, so the flag is set and the rest of the series changes nothing.
      have hperf : Performs f := hs.resolve_left fun hx => hx.elim hpc fun hs => hf (hsteady f hs)
      have hset : pc' := hpc'.mpr fun hs => absurd hs hf
      exact .inl ⟨[], f, fs, rfl, hperf, List.forall_mem_nil _, h.still_of_pc hset⟩
  | entered he =>
    rw [hen _ List.mem_cons_self] at he
    cases he

end Accounted

namespace ActionRefinement

variable {globals : List Variable} {i : Implementation} {a : AtomicAction} {σ : Surroundings M}
  {s t u : M.State} {fs : List (Fragment M)}

/-! ## Judged fragments -/

/-- What is added for an action: copies of globals and outputs, and the flags. -/
def marks (globals : List Variable) (i : Implementation) (a : AtomicAction) : List Variable :=
  Snapshot.shadows globals ++ Refinement.locals (some (ofAction globals i a))

/-- Globals, formals and what is added have different names. -/
def Named (globals : List Variable) (i : Implementation) (a : AtomicAction) : Prop :=
  ((globals ++ (i.inputs ++ i.outputs) ++ marks globals i a).map Variable.name).Nodup

/-- A fragment from `s` to `t`, and the state `u` after its account. -/
structure Round (globals : List Variable) (i : Implementation) (a : AtomicAction)
    (σ : Surroundings M) (s t u : M.State) : Prop where
  /-- The copies are made, then any code runs that keeps the inputs and what is added. -/
  code : ∃ m, Runs σ (Snapshot.update globals ++ (ofAction globals i a).saveOutputs) s m ∧
    Keeps (i.inputs ++ marks globals i a) m t
  check : Passes σ (Refinement.assertStep (some (ofAction globals i a))) t
  account : Runs σ (Refinement.endStep (some (ofAction globals i a))) t u

/-- One fragment after the other, with other threads in between, up to the check of a return. -/
inductive Rounds (globals : List Variable) (i : Implementation) (a : AtomicAction)
    (σ : Surroundings M) : M.State → List (Fragment M) → Prop
  | last {s t u : M.State} (h : Round globals i a σ s t u)
      (hp : Passes σ (Refinement.assertReturn (some (ofAction globals i a))) u) :
      Rounds globals i a σ s [⟨s, t, false⟩]
  | next {s t u n : M.State} {fs : List (Fragment M)} (h : Round globals i a σ s t u)
      (hn : ∀ x ∉ globals.map Variable.name, n x = u x) (hr : Rounds globals i a σ n fs) :
      Rounds globals i a σ s (⟨s, t, false⟩ :: fs)

/-- A series of fragments that begins with no flag set. -/
def Protocol (globals : List Variable) (i : Implementation) (a : AtomicAction)
    (σ : Surroundings M) (s : M.State) (fs : List (Fragment M)) : Prop :=
  ∃ m, Runs σ (Refinement.initial (some (ofAction globals i a))) s m ∧ Rounds globals i a σ m fs

/-! ## Names -/

namespace Named

variable (h : Named globals i a)

include h

theorem scope_ne {v w : Variable} (hv : v ∈ globals ++ (i.inputs ++ i.outputs))
    (hw : w ∈ marks globals i a) : v.name ≠ w.name := by
  rw [Named, List.map_append, List.nodup_append] at h
  exact h.2.2 _ (List.mem_map_of_mem hv) _ (List.mem_map_of_mem hw)

theorem nodup_marks : ((marks globals i a).map Variable.name).Nodup := by
  rw [Named, List.map_append, List.nodup_append] at h
  exact h.2.1

theorem shadow_ne {v w : Variable} (hv : v ∈ Snapshot.shadows globals)
    (hw : w ∈ Refinement.locals (some (ofAction globals i a))) : v.name ≠ w.name := by
  have hn := h.nodup_marks
  rw [marks, List.map_append, List.nodup_append] at hn
  exact hn.2.2 _ (List.mem_map_of_mem hv) _ (List.mem_map_of_mem hw)

theorem flag_ne {v o : Variable} (hv : v ∈ [pc, ok]) (ho : o ∈ i.outputs) :
    (oldOutput o).name ≠ v.name := by
  have hn : ((i.outputs.map oldOutput).map Variable.name).Disjoint [pc.name, ok.name] := by
    have hm := h.nodup_marks
    rw [marks, List.map_append, List.nodup_append] at hm
    have hflags : (([pc, ok] ++ i.outputs.map oldOutput).map Variable.name).Nodup := hm.2.1
    rw [List.map_append, List.nodup_append'] at hflags
    exact hflags.2.2.symm
  intro he
  exact hn (List.mem_map_of_mem (List.mem_map_of_mem ho)) (he ▸ List.mem_map_of_mem hv)

end Named

theorem flag_mem_locals {v : Variable} (hv : v ∈ [pc, ok]) :
    v ∈ Refinement.locals (some (ofAction globals i a)) :=
  List.mem_append_left (i.outputs.map oldOutput) hv

theorem oldOutput_mem_locals {o : Variable} (ho : o ∈ i.outputs) :
    oldOutput o ∈ Refinement.locals (some (ofAction globals i a)) :=
  List.mem_append_right [pc, ok] (List.mem_map_of_mem ho)

/-! ## One fragment -/

/-- Where the copies have been made they are those of the fragment, and the flags stay. -/
theorem Named.runs_copies (hn : Named globals i a)
    (hr : Runs σ (Snapshot.update globals ++ (ofAction globals i a).saveOutputs) s t) :
    (ofAction globals i a).Tracks s t ∧ ∀ v ∈ [pc, ok], t v.name = s v.name := by
  obtain ⟨m, hu, ho⟩ := runs_append.mp hr
  obtain ⟨hug, hu⟩ := Snapshot.runs_update hu
  obtain ⟨hoo, ho⟩ := runs_saveOutputs ho
  have hshadow : ∀ v ∈ Refinement.locals (some (ofAction globals i a)), ∀ g ∈ globals,
      (Snapshot.shadow g).name ≠ v.name :=
    fun v hv g hg => hn.shadow_ne (List.mem_map_of_mem hg) hv
  refine ⟨⟨fun g hg => ?_, fun o hmo => ?_⟩, fun v hv => ?_⟩
  · rw [ho _ fun o ho => (hshadow _ (oldOutput_mem_locals ho) g hg).symm, hug g hg]
  · have hout : o ∈ globals ++ (i.inputs ++ i.outputs) :=
      List.mem_append_right _ (List.mem_append_right _ hmo)
    rw [hoo o hmo, hu _ fun g hg =>
      (hn.scope_ne hout (List.mem_append_left _ (List.mem_map_of_mem hg))).symm]
  · rw [ho _ fun o ho => hn.flag_ne hv ho, hu _ (hshadow v (flag_mem_locals hv))]

/-- **What a fragment that passes its check has done**, and what its account adds. -/
theorem Round.spec (h : Round globals i a σ s t u) (hn : Named globals i a) (hM : M.Standard) :
    ((M.Holds (s pc.name) ∨ Keeps (globals ++ i.outputs) s t) ∨ a.Performs i globals s t) ∧
      (M.Holds (s pc.name) → Keeps (globals ++ i.outputs) s t) ∧
      (M.Holds (u pc.name) ↔ (Keeps globals s t → M.Holds (s pc.name))) ∧
      (M.Holds (u ok.name) ↔ M.Holds (s ok.name) ∨ a.Performs i globals s t) := by
  obtain ⟨m, hm, hk⟩ := h.code
  obtain ⟨htr, hflags⟩ := hn.runs_copies hm
  have hmarks : ∀ v ∈ marks globals i a, t v.name = m v.name :=
    fun v hv => hk v (List.mem_append_right _ hv)
  have hstay : ∀ v ∈ [pc, ok], t v.name = s v.name := fun v hv => by
    rw [hmarks v (List.mem_append_right _ (flag_mem_locals hv)), hflags v hv]
  have htr' : (ofAction globals i a).Tracks s t :=
    ⟨fun g hg => (hmarks _ (List.mem_append_left _ (List.mem_map_of_mem hg))).trans
        (htr.globals g hg),
      fun o ho => (hmarks _ (List.mem_append_right _ (oldOutput_mem_locals ho))).trans
        (htr.outputs o ho)⟩
  have hcheck := h.check
  rw [← List.append_nil (Refinement.assertStep _), Refinement.passes_assertStep hM htr'] at hcheck
  have haccount := Refinement.of_runs_endStep hM htr' h.account
  rw [hstay pc List.mem_cons_self] at hcheck haccount
  rw [hstay ok (List.mem_cons_of_mem _ List.mem_cons_self)] at haccount
  exact ⟨hcheck.1, hcheck.2.1, haccount.1, haccount.2.1⟩

/-! ## A series of fragments -/

/-- The flags account for the fragments of a series. -/
theorem Rounds.accounted (h : Rounds globals i a σ s fs) (hn : Named globals i a)
    (hM : M.Standard) :
    Accounted (fun f => Keeps (globals ++ i.outputs) f.start f.stop)
      (fun f => Keeps globals f.start f.stop) (fun f => a.Performs i globals f.start f.stop)
      (M.Holds (s pc.name)) (M.Holds (s ok.name)) fs := by
  induction h with
  | last h hp =>
    obtain ⟨hstep, hpc, -, hok⟩ := h.spec hn hM
    exact .last rfl hstep hpc (hok.mp (passes_assert_cons.mp hp).1)
  | @next s t u n fs h hothers _ ih =>
    obtain ⟨hstep, hpc, hpc', hok'⟩ := h.spec hn hM
    have hflag : ∀ v ∈ [pc, ok], n v.name = u v.name := fun v hv => by
      refine hothers _ fun hg => ?_
      obtain ⟨g, hg, he⟩ := List.mem_map.mp hg
      exact hn.scope_ne (List.mem_append_left _ hg)
        (List.mem_append_right _ (flag_mem_locals hv)) he
    rw [hflag pc List.mem_cons_self, hflag ok (List.mem_cons_of_mem _ List.mem_cons_self)] at ih
    exact .noted rfl hstep hpc hpc' hok' ih

theorem Rounds.entering_eq (h : Rounds globals i a σ s fs) : ∀ f ∈ fs, f.entering = false := by
  induction h with
  | last => exact List.forall_mem_singleton.mpr rfl
  | next _ _ _ ih => exact List.forall_mem_cons.mpr ⟨rfl, ih⟩

/-- Before the first fragment no flag is set. -/
theorem Named.runs_initial (hn : Named globals i a) (hM : M.Standard)
    (hr : Runs σ (Refinement.initial (some (ofAction globals i a))) s t) :
    ∀ v ∈ [pc, ok], ¬ M.Holds (t v.name) := by
  obtain ⟨m, hm, ho⟩ := hr
  obtain ⟨-, ho⟩ := runs_saveOutputs ho
  have hm : m = Function.update (Function.update s pc.name (M.bool false)) ok.name
      (M.bool false) := hm
  intro v hv
  have hfalse : m v.name = M.bool false := by
    rcases List.mem_cons.mp hv with rfl | hv
    · rw [hm, Function.update_of_ne (by decide), Function.update_self]
    · rw [List.mem_singleton.mp hv, hm, Function.update_self]
  rw [ho _ fun o ho => hn.flag_ne hv ho, hfalse]
  exact hM.consistent

/-- **A judged series performs the action in one of its fragments.**  The fragments before it leave
the globals alone, the ones after it globals and outputs. -/
theorem Protocol.exists_linearization (h : Protocol globals i a σ s fs) (hn : Named globals i a)
    (hM : M.Standard) :
    ∃ before f after, fs = before ++ f :: after ∧ a.Performs i globals f.start f.stop ∧
      (∀ g ∈ before, Keeps globals g.start g.stop) ∧
      ∀ g ∈ after, Keeps (globals ++ i.outputs) g.start g.stop := by
  obtain ⟨m, hm, hr⟩ := h
  have hflags := hn.runs_initial hM hm
  have hsplit := (hr.accounted hn hM).exists_split hr.entering_eq
    (fun f hs v hv => hs v (List.mem_append_left _ hv)) (hflags pc List.mem_cons_self)
  exact hsplit.resolve_right fun hok =>
    hflags ok (List.mem_cons_of_mem _ List.mem_cons_self) hok.1

end ActionRefinement

/-! ## A series of three fragments

The first leaves the counter alone, the second increments it, the third leaves it alone again. -/

namespace Counter

open ActionRefinement

/-- The counter, its copy, and the value of both flags. -/
noncomputable def marked (m n : Int) (b : Bool) : model.State := fun y =>
  if y = x.name then model.int m
  else if y = (Snapshot.shadow x).name then model.int n
  else model.bool (b && (y == pc.name || y == ok.name))

theorem marked_flag (m n : Int) (b : Bool) {v : Variable} (hv : v ∈ [pc, ok]) :
    marked m n b v.name = model.bool b := by
  have hne : v.name ≠ x.name ∧ v.name ≠ (Snapshot.shadow x).name ∧
      (v.name == pc.name || v.name == ok.name) = true := by
    rcases List.mem_cons.mp hv with rfl | hv
    · decide
    · rw [List.mem_singleton.mp hv]
      decide
  rw [marked, if_neg hne.1, if_neg hne.2.1, hne.2.2, Bool.and_true]

theorem keeps_marked {m k n l : Int} {b c : Bool} :
    Keeps [x] (marked m n b) (marked k l c) ↔ k = m := by
  rw [Keeps, List.forall_mem_singleton]
  exact Sum.inr_injective.eq_iff

theorem performs_marked {m k n l : Int} {b c : Bool} :
    action.Performs (copy []) [x] (marked m n b) (marked k l c) ↔ k = m + 1 :=
  truth_eq.trans Sum.inr_injective.eq_iff

theorem tracks_marked (m n k : Int) (b c : Bool) :
    (ofAction [x] (copy []) action).Tracks (marked m n b) (marked k m c) where
  globals g hg := by
    rw [List.mem_singleton.mp hg]
    rfl
  outputs o ho := absurd ho List.not_mem_nil

open Classical in
theorem truth_eq_bool {p : Prop} {b : Bool} (h : p ↔ b = true) : truth p = model.bool b := by
  cases b with
  | true => exact truth_eq.mpr (h.mpr rfl)
  | false =>
    refine congrArg Sum.inl (Bool.eq_false_iff.mpr fun hp => ?_)
    exact Bool.false_ne_true (h.mp (of_decide_eq_true hp))

/-- A fragment leaves the counter alone, or is the first to increment it. -/
theorem round_marked (σ : Surroundings model) (m n k : Int) (b : Bool)
    (hk : k = m ∨ (b = false ∧ k = m + 1)) :
    Round [x] (copy []) action σ (marked m n b) (marked k m b)
      (marked k m (b || decide (k = m + 1))) where
  code := by
    refine ⟨marked m m b, runs_append.mpr ⟨_, runs_assignAll.mpr ?_, rfl⟩, fun v hv => ?_⟩
    · refine (Function.update_eq_iff.mpr ⟨rfl, fun y hy => ?_⟩).symm
      rw [marked, marked, if_neg hy, if_neg hy]
    · rcases List.mem_cons.mp hv with rfl | hv
      · rfl
      · rw [marked_flag k m b hv, marked_flag m m b hv]
  check := by
    rw [← List.append_nil (Refinement.assertStep _),
      Refinement.passes_assertStep standard_model (tracks_marked m n k b b),
      marked_flag k m b List.mem_cons_self]
    refine ⟨?_, fun hb => ?_, trivial⟩
    · rcases hk with rfl | ⟨-, rfl⟩
      · exact .inl (.inr (keeps_marked.mpr rfl))
      · exact .inr (performs_marked.mpr rfl)
    · refine keeps_marked.mpr (hk.resolve_right fun h => ?_)
      rw [h.1] at hb
      exact standard_model.consistent hb
  account := by
    have htr := tracks_marked m n k b b
    have hflags : ∀ v ∈ [pc, ok], marked k m (b || decide (k = m + 1)) v.name =
        model.bool (b || decide (k = m + 1)) := fun v hv => marked_flag _ _ _ hv
    have hvar : ∀ v ∈ [pc, ok], v.expr.eval (marked k m b) σ.pre = Sum.inl true ↔ b = true :=
      fun v hv => by
        rw [Variable.expr, Expr.eval, marked_flag k m b hv]
        exact Sum.inl_injective.eq_iff
    refine runs_singleton.mpr (Function.update_eq_iff.mpr ⟨?_, fun y hok => ?_⟩).symm
    · rw [hflags ok (List.mem_cons_of_mem _ List.mem_cons_self)]
      refine truth_eq_bool ((or_congr Iff.rfl htr.holds_transition).trans ?_)
      rw [Bool.or_eq_true, decide_eq_true_iff, performs_marked]
      exact or_congr (hvar ok (List.mem_cons_of_mem _ List.mem_cons_self)) Iff.rfl
    · by_cases hpc : y = pc.name
      · rw [hpc, hflags pc List.mem_cons_self, Function.update_self]
        refine truth_eq_bool ((imp_congr (htr.holds_globals standard_model)
          (hvar pc List.mem_cons_self)).trans ?_)
        rw [Bool.or_eq_true, decide_eq_true_iff]
        refine (imp_congr keeps_marked Iff.rfl).trans ?_
        constructor
        · intro h
          exact hk.imp h And.right
        · rintro (rfl | rfl) hm
          · rfl
          · omega
      · rw [Function.update_of_ne hpc, marked, marked, beq_false_of_ne hpc, beq_false_of_ne hok,
          Bool.or_false, Bool.and_false, Bool.and_false]

/-- Other threads change the counter only. -/
theorem marked_of_notMem {m k n : Int} {b : Bool} :
    ∀ y ∉ [x].map Variable.name, marked k n b y = marked m n b y := by
  intro y hy
  rw [List.map_cons, List.map_nil, List.mem_singleton] at hy
  rw [marked, marked, if_neg hy, if_neg hy]

theorem named_marked : Named [x] (copy []) action := by
  unfold Named
  decide

theorem protocol_marked (σ : Surroundings model) :
    Protocol [x] (copy []) action σ (marked 0 0 false)
      [⟨marked 0 0 false, marked 0 0 false, false⟩,
        ⟨marked 4 0 false, marked 5 4 false, false⟩,
        ⟨marked 7 4 true, marked 7 7 true, false⟩] := by
  have hinit : marked 0 0 false = setAll (marked 0 0 false) [pc.name, ok.name]
      [model.bool false, model.bool false] :=
    (setAll_self (marked 0 0 false) [pc.name, ok.name]).symm
  refine ⟨marked 0 0 false, ⟨_, hinit, rfl⟩, ?_⟩
  refine .next (n := marked 4 0 false) (round_marked σ 0 0 0 false (.inl rfl))
    marked_of_notMem ?_
  refine .next (n := marked 7 4 true) (round_marked σ 4 0 5 false (.inr ⟨rfl, rfl⟩))
    marked_of_notMem ?_
  exact .last (round_marked σ 7 4 7 true (.inl rfl)) (passes_assert_cons.mpr ⟨rfl, trivial⟩)

end Counter

namespace ActionRefinement

/-- The counter is incremented in the second of three fragments. -/
theorem exists_linearization_marked :
    let start := Counter.marked 0 0 false
    let f := fun (m n : Int) (k l : Int) (b : Bool) =>
      (⟨Counter.marked m n b, Counter.marked k l b, false⟩ : Fragment Counter.model)
    let fs := [f 0 0 0 0 false, f 4 0 5 4 false, f 7 4 7 7 true]
    Protocol [Counter.x] (Counter.copy []) Counter.action ⟨start, []⟩ start fs ∧
      Named [Counter.x] (Counter.copy []) Counter.action ∧ Counter.model.Standard ∧
      ∃ before f after, fs = before ++ f :: after ∧
        Counter.action.Performs (Counter.copy []) [Counter.x] f.start f.stop ∧
        (∀ g ∈ before, Keeps [Counter.x] g.start g.stop) ∧
        ∀ g ∈ after, Keeps [Counter.x] g.start g.stop := by
  have h := Counter.protocol_marked ⟨Counter.marked 0 0 false, []⟩
  exact ⟨h, Counter.named_marked, Counter.standard_model,
    h.exists_linearization Counter.named_marked Counter.standard_model⟩

end ActionRefinement

end LayerCheck
