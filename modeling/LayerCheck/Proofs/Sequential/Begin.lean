import LayerCheck.Proofs.Sequential.Fragments

/-!
# Where fragments begin

At the beginning of a fragment the globals and outputs are copied.  The copies and the flags are
named apart from all that the copy of the implementation writes, so they are the same as long as the
fragment goes on.

* `Sequential.Apart`: the names of the added variables are new, and the copy does not write them.
* `Sequential.Apart.keeps_of_runs`: the commands of the copy leave the added variables alone.
* `Sequential.Apart.runs_store`, `Sequential.Apart.runs_beginStep`,
  `Sequential.Apart.runs_initialBlock`: where a fragment begins.
-/

namespace LayerCheck

open Interpretation Command

variable {M : Interpretation} {σ : Surroundings M} {s t : M.State}

/-! ## Storing values -/

theorem Variable.map_eval_expr (vs : List Variable) (s pre : M.State) :
    (vs.map Variable.expr).map (·.eval s pre) = (vs.map Variable.name).map s := by
  rw [List.map_map, List.map_map]
  rfl

theorem Variable.notMem_names {vs : List Variable} {x : String} (h : ∀ v ∈ vs, v.name ≠ x) :
    x ∉ vs.map Variable.name := by
  intro hx
  obtain ⟨v, hv, he⟩ := List.mem_map.mp hx
  exact h v hv he

theorem Snapshot.map_name_shadows (globals : List Variable) :
    (shadows globals).map Variable.name = (globals.map Variable.name).map ("__snapshot_" ++ ·) := by
  rw [shadows, List.map_map, List.map_map]
  rfl

theorem Snapshot.runs_update {globals : List Variable} (h : Runs σ (update globals) s t) :
    (∀ g ∈ globals, t (shadow g).name = s g.name) ∧
      ∀ x, (∀ g ∈ globals, (shadow g).name ≠ x) → t x = s x := by
  rw [update, runs_assignAll, Variable.map_eval_expr] at h
  subst h
  refine ⟨fun g hg => ?_, fun x hx => setAll_of_notMem (Variable.notMem_names ?_)⟩
  · rw [map_name_shadows, shadow_name]
    exact setAll_copies (fun _ _ => (String.append_right_inj _).mp) (List.mem_map_of_mem hg)
  · exact List.forall_mem_map.mpr hx

theorem ActionRefinement.runs_saveOutputs {r : ActionRefinement} (h : Runs σ r.saveOutputs s t) :
    (∀ o ∈ r.outputs, t (oldOutput o).name = s o.name) ∧
      ∀ x, (∀ o ∈ r.outputs, (oldOutput o).name ≠ x) → t x = s x := by
  have hn : (r.outputs.map fun v => (oldOutput v).name) =
      (r.outputs.map Variable.name).map ("__old_out_" ++ ·) := by
    rw [List.map_map]
    rfl
  rw [saveOutputs, runs_assignAll, Variable.map_eval_expr] at h
  subst h
  refine ⟨fun o ho => ?_, fun x hx => setAll_of_notMem fun hm => ?_⟩
  · rw [hn]
    exact setAll_copies (f := ("__old_out_" ++ ·)) (fun _ _ => (String.append_right_inj _).mp)
      (List.mem_map_of_mem ho)
  · obtain ⟨o, ho, he⟩ := List.mem_map.mp hm
    exact hx o ho he

theorem Interference.runs_collect {i : Interference} {site : Site} {scope : List Variable}
    (h : Runs σ (i.collect site scope) s t) :
    ∀ x, (∀ v ∈ i.locals, v.name ≠ x) → t x = s x := by
  intro x hx
  cases i with
  | trusted => rw [runs_nil.mp h]
  | checked tr =>
    rw [collect, runs_assignAll] at h
    rw [h]
    exact setAll_of_notMem (Variable.notMem_names hx)

namespace Sequential

open ActionRefinement

variable {q : Sequential} {a : AtomicAction} {pre : M.State}

/-- The added variables are named apart from all others, and the copy writes none of them. -/
structure Apart (q : Sequential) : Prop where
  names : ((q.globals ++ q.source.vars ++ q.locals).map Variable.name).Nodup
  body : ∀ b ∈ q.source.blocks, ∀ c ∈ b.commands, ∀ v ∈ q.locals, v.name ∉ c.writes

/-- The added variables that keep account of fragments: copies and flags. -/
def marks (q : Sequential) : List Variable := Snapshot.shadows q.globals ++ q.refinement.locals

/-- What the copy is checked to refine. -/
abbrev refining (q : Sequential) (a : AtomicAction) : ActionRefinement :=
  .ofAction q.globals q.source a

theorem refinement_eq (ha : q.plan.action? = some a) : q.refinement = some (q.refining a) := by
  rw [refinement, ha]
  rfl

theorem mem_locals_of_mem_marks {v : Variable} (hv : v ∈ q.marks) : v ∈ q.locals :=
  List.mem_append_left _ hv

theorem shadow_mem_marks {g : Variable} (hg : g ∈ q.globals) : Snapshot.shadow g ∈ q.marks :=
  List.mem_append_left _ (List.mem_map_of_mem hg)

theorem pc_mem_marks (ha : q.plan.action? = some a) : pc ∈ q.marks := by
  rw [marks, refinement_eq ha]
  exact List.mem_append_right _ List.mem_cons_self

theorem ok_mem_marks (ha : q.plan.action? = some a) : ok ∈ q.marks := by
  rw [marks, refinement_eq ha]
  exact List.mem_append_right _ (List.mem_cons_of_mem _ List.mem_cons_self)

theorem oldOutput_mem_marks (ha : q.plan.action? = some a) {o : Variable}
    (ho : o ∈ q.source.outputs) : oldOutput o ∈ q.marks := by
  rw [marks, refinement_eq ha]
  exact List.mem_append_right _
    (List.mem_cons_of_mem _ (List.mem_cons_of_mem _ (List.mem_map_of_mem ho)))

/-- What copies are made of are variables of the copy and globals. -/
theorem mem_vars {v : Variable} (hv : v ∈ q.globals ++ q.source.outputs) :
    v ∈ q.globals ++ q.source.vars := by
  rcases List.mem_append.mp hv with hv | hv
  · exact List.mem_append_left _ hv
  · exact List.mem_append_right _ (List.mem_append_left _ (List.mem_append_right _ hv))

/-- The fragment goes on as long as the copies and the flags stay. -/
theorem tracks_of_keeps (ha : q.plan.action? = some a) {start : M.State}
    (h : (q.refining a).Tracks start s) (hk : Keeps q.marks s t) :
    (q.refining a).Tracks start t where
  globals g hg := (hk _ (shadow_mem_marks hg)).trans (h.globals g hg)
  outputs o ho := (hk _ (oldOutput_mem_marks ha ho)).trans (h.outputs o ho)

namespace Apart

/-! ## Names -/

theorem name_ne (h : q.Apart) {v w : Variable} (hv : v ∈ q.globals ++ q.source.vars)
    (hw : w ∈ q.locals) : v.name ≠ w.name := by
  have hn := h.names
  rw [List.map_append, List.nodup_append] at hn
  exact hn.2.2 _ (List.mem_map_of_mem hv) _ (List.mem_map_of_mem hw)

theorem nodup_locals (h : q.Apart) : (q.locals.map Variable.name).Nodup := by
  have hn := h.names
  rw [List.map_append, List.nodup_append] at hn
  exact hn.2.1

theorem mark_ne (h : q.Apart) {v w : Variable} (hv : v ∈ q.marks)
    (hw : w ∈ q.interference.locals) : v.name ≠ w.name := by
  have hn := h.nodup_locals
  rw [locals, List.map_append, List.nodup_append] at hn
  exact hn.2.2 _ (List.mem_map_of_mem hv) _ (List.mem_map_of_mem hw)

theorem shadow_ne (h : q.Apart) {v w : Variable} (hv : v ∈ Snapshot.shadows q.globals)
    (hw : w ∈ q.refinement.locals) : v.name ≠ w.name := by
  have hn := h.nodup_locals
  rw [locals, List.map_append, List.nodup_append, List.map_append, List.nodup_append] at hn
  exact hn.1.2.2 _ (List.mem_map_of_mem hv) _ (List.mem_map_of_mem hw)

theorem flag_ne (h : q.Apart) (ha : q.plan.action? = some a) {o : Variable}
    (ho : o ∈ q.source.outputs) :
    pc.name ≠ (oldOutput o).name ∧ ok.name ≠ (oldOutput o).name := by
  have hn := h.nodup_locals
  rw [locals, refinement_eq ha, List.map_append, List.nodup_append, List.map_append,
    List.nodup_append, Refinement.locals, List.map_cons, List.map_cons] at hn
  have hm : (oldOutput o).name ∈ ((q.refining a).outputs.map oldOutput).map Variable.name :=
    List.mem_map_of_mem (List.mem_map_of_mem ho)
  have hc := List.nodup_cons.mp hn.1.2.1
  constructor
  · intro he
    exact hc.1 (List.mem_cons_of_mem _ (he ▸ hm))
  · intro he
    exact (List.nodup_cons.mp hc.2).1 (he ▸ hm)

/-! ## The commands of the copy -/

/-- **Commands that write no added variable leave them as they are.** -/
theorem keeps_of_runs (h : q.Apart) {cs : List Command}
    (hcs : ∀ c ∈ cs, ∀ v ∈ q.locals, v.name ∉ c.writes)
    (hr : Runs (q.surroundings pre) cs s t) : Keeps q.marks s t := by
  intro v hv
  refine hr.frame (fun c hc => hcs c hc v (mem_locals_of_mem_marks hv)) fun hg => ?_
  obtain ⟨g, hg, he⟩ := List.mem_map.mp hg
  exact h.name_ne (List.mem_append_left _ hg) (mem_locals_of_mem_marks hv) he

theorem notMem_writes (h : q.Apart) (hw : q.WellFormed) {b : Block} (hb : b ∈ q.base.blocks)
    {c : Command} (hc : c ∈ b.commands) {v : Variable} (hv : v ∈ q.locals) :
    v.name ∉ c.writes := by
  cases hp : c.isPredicate with
  | true =>
    cases c with
    | assume e => exact List.not_mem_nil
    | assert e m? => exact List.not_mem_nil
    | _ => cases hp
  | false =>
    obtain ⟨d, hd, -, hcd⟩ := hw.mem_source_of_mem_base hb hc hp
    exact h.body d hd c hcd v hv

/-! ## The beginning of a fragment -/

/-- Storing globals and outputs; in between the flags may be set. -/
theorem of_runs_store (h : q.Apart) (ha : q.plan.action? = some a) {m m' : M.State}
    (hu : Runs σ (Snapshot.update q.globals) s m)
    (hm : ∀ x, x ≠ pc.name → x ≠ ok.name → m' x = m x)
    (ho : Runs σ (q.refining a).saveOutputs m' t) :
    (q.refining a).Tracks s t ∧ t pc.name = m' pc.name ∧ t ok.name = m' ok.name ∧
      Keeps (q.globals ++ q.source.outputs) s t := by
  obtain ⟨hug, hu⟩ := Snapshot.runs_update hu
  obtain ⟨hoo, ho⟩ := ActionRefinement.runs_saveOutputs ho
  have href : ∀ v ∈ q.refinement.locals, ∀ g ∈ q.globals, (Snapshot.shadow g).name ≠ v.name :=
    fun v hv g hg => h.shadow_ne (List.mem_map_of_mem hg) hv
  have hflags : pc ∈ q.refinement.locals ∧ ok ∈ q.refinement.locals ∧
      ∀ o ∈ q.source.outputs, oldOutput o ∈ q.refinement.locals := by
    rw [refinement_eq ha]
    exact ⟨List.mem_cons_self, List.mem_cons_of_mem _ List.mem_cons_self, fun o ho =>
      List.mem_cons_of_mem _ (List.mem_cons_of_mem _ (List.mem_map_of_mem ho))⟩
  -- A variable of the copy is none of those that are written.
  have hscope : ∀ v ∈ q.globals ++ q.source.outputs,
      m' v.name = s v.name ∧ t v.name = s v.name := by
    intro v hv
    have hne : ∀ w ∈ q.locals, v.name ≠ w.name := fun w hw => h.name_ne (mem_vars hv) hw
    have hm' : m' v.name = s v.name := by
      rw [hm _ (hne _ (mem_locals_of_mem_marks (pc_mem_marks ha)))
          (hne _ (mem_locals_of_mem_marks (ok_mem_marks ha))),
        hu _ fun g hg => (hne _ (mem_locals_of_mem_marks (shadow_mem_marks hg))).symm]
    refine ⟨hm', ?_⟩
    rw [ho _ fun o ho => (hne _ (mem_locals_of_mem_marks (oldOutput_mem_marks ha ho))).symm, hm']
  refine ⟨⟨fun g hg => ?_, fun o hmo => ?_⟩, ?_, ?_, fun v hv => (hscope v hv).2⟩
  · rw [ho _ fun o ho => (href _ (hflags.2.2 o ho) g hg).symm,
      hm _ (href _ hflags.1 g hg) (href _ hflags.2.1 g hg), hug g hg]
  · rw [hoo o hmo]
    exact (hscope o (List.mem_append_right _ hmo)).1
  · rw [ho _ fun o ho => (h.flag_ne ha ho).1.symm]
  · rw [ho _ fun o ho => (h.flag_ne ha ho).2.symm]

/-- Collecting the permissions leaves alone the copies, the flags and what they are copies of. -/
theorem keeps_of_runs_collect (h : q.Apart) {site : Site} {scope : List Variable}
    (hc : Runs σ (q.interference.collect site scope) s t) :
    Keeps q.marks s t ∧ Keeps (q.globals ++ q.source.outputs) s t := by
  have hc := Interference.runs_collect hc
  exact ⟨fun v hv => hc _ fun w hw => (h.mark_ne hv hw).symm, fun v hv =>
    hc _ fun w hw => (h.name_ne (mem_vars hv) (List.mem_append_right _ hw)).symm⟩

/-- **The copies are those of the state in which they are made**, and the flags stay. -/
theorem runs_store (h : q.Apart) (ha : q.plan.action? = some a) (hr : Runs σ q.store s t) :
    (q.refining a).Tracks s t ∧ t pc.name = s pc.name ∧ t ok.name = s ok.name := by
  rw [store, refinement_eq ha, runs_append] at hr
  obtain ⟨m, hu, ho⟩ := hr
  obtain ⟨ht, hp, hk, -⟩ := h.of_runs_store ha hu (fun _ _ _ => rfl) ho
  have hflag : ∀ v ∈ q.refinement.locals, m v.name = s v.name := fun v hv =>
    (Snapshot.runs_update hu).2 _ fun g hg => h.shadow_ne (List.mem_map_of_mem hg) hv
  rw [refinement_eq ha] at hflag
  refine ⟨ht, ?_, ?_⟩
  · rw [hp, hflag pc List.mem_cons_self]
  · rw [hk, hflag ok (List.mem_cons_of_mem _ List.mem_cons_self)]

/-- **A fragment begins with the copies of its first state**, and the flags stay. -/
theorem runs_beginStep (h : q.Apart) (ha : q.plan.action? = some a) {site : Site}
    (hr : Runs σ (q.beginStep site) s t) :
    (q.refining a).Tracks s t ∧ t pc.name = s pc.name ∧ t ok.name = s ok.name := by
  rw [beginStep, collect, runs_append] at hr
  obtain ⟨n, hr, hc⟩ := hr
  obtain ⟨ht, hp, hk⟩ := h.runs_store ha hr
  have hkeep := (h.keeps_of_runs_collect hc).1
  exact ⟨tracks_of_keeps ha ht hkeep, (hkeep _ (pc_mem_marks ha)).trans hp,
    (hkeep _ (ok_mem_marks ha)).trans hk⟩

/-- **The first fragment begins where the initial block ends**, and no flag is set. -/
theorem runs_initialBlock (h : q.Apart) (ha : q.plan.action? = some a) (hM : M.Standard)
    (hr : Runs σ (q.initialBlock q.others).commands s t) :
    (q.refining a).Tracks t t ∧ ¬ M.Holds (t pc.name) ∧ ¬ M.Holds (t ok.name) := by
  rw [initialBlock, initialBlockFrom, refinement_eq ha, Refinement.initial, runs_append,
    setFlags] at hr
  obtain ⟨n, hr, hc⟩ := hr
  obtain ⟨m, hr, m', hf, ho⟩ := runs_append.mp hr
  obtain ⟨u, -, hu⟩ := runs_append.mp hr
  have hne : pc.name ≠ ok.name := by decide
  have hf : m' = Function.update (Function.update m pc.name (M.bool false)) ok.name
      (M.bool false) := hf
  have hm : ∀ x, x ≠ pc.name → x ≠ ok.name → m' x = m x := fun x hp hk => by
    rw [hf, Function.update_of_ne hk, Function.update_of_ne hp]
  obtain ⟨ht, hp, hk, hs⟩ := h.of_runs_store ha hu hm ho
  obtain ⟨hmarks, hscope⟩ := h.keeps_of_runs_collect hc
  have ht := tracks_of_keeps ha ht hmarks
  refine ⟨⟨fun g hg => ?_, fun o ho => ?_⟩, ?_, ?_⟩
  · have hg' := List.mem_append_left q.source.outputs hg
    rw [ht.globals g hg, hscope g hg', hs g hg']
  · have ho' := List.mem_append_right q.globals ho
    rw [ht.outputs o ho, hscope o ho', hs o ho']
  · rw [hmarks _ (pc_mem_marks ha), hp, hf, Function.update_of_ne hne, Function.update_self]
    exact hM.consistent
  · rw [hmarks _ (ok_mem_marks ha), hk, hf, Function.update_self]
    exact hM.consistent

end Apart

end Sequential

end LayerCheck
