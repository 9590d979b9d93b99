import LayerCheck.Proofs.Permission.Carried
import LayerCheck.Proofs.Permission.Collected
import LayerCheck.Proofs.Sequential.Account
import LayerCheck.Proofs.Sequential.Repeated

/-!
# What is stored at the beginning of a fragment

A fragment begins with copies of the globals and outputs and with the union of the permissions at
hand.  As long as nothing but the added commands writes the added variables, these hold what was
there at the beginning, also if the head of a loop is opened more than once.

* `Moment`: where and in which state a fragment begins.
* `Sequential.Stored`: the added variables hold what was there at the moment.
* `Sequential.Reserved`: the names of the added variables are kept for them.
* `Sequential.Reserved.stored_afterEntry`, `Sequential.Reserved.stored_opened`,
  `Sequential.Reserved.stored_afterHavoc`, `Sequential.Reserved.stored_afterCall`: everywhere that a
  fragment begins.
-/

namespace LayerCheck

open Interpretation Command

variable {M : Interpretation} {σ : Surroundings M} {s t : M.State}

/-- Where a fragment begins: the state, the site and the variables that are in scope there. -/
structure Moment (M : Interpretation) where
  state : M.State
  site : Site
  scope : List Variable

/-! ## Commands that store -/

/-- The permissions of the site are stored as they are. -/
theorem Interference.runs_collect_checked {tr : Tracker} {site : Site} {scope : List Variable}
    (h : Runs σ ((Interference.checked tr).collect site scope) s t) :
    ∀ d ∈ tr.permissions.domains.values,
      t d.collector.name = d.unionOf (d.carried (tr.permissions.available site scope) s) := by
  have hn : tr.collectors.map Variable.name =
      tr.permissions.domains.values.map fun d => d.collector.name := by
    rw [Tracker.collectors, List.map_map]
    rfl
  have hv : ((tr.permissions.unions site scope).map Prod.snd).map (·.eval s σ.pre) =
      tr.permissions.domains.values.map fun d =>
        d.unionOf (d.carried (tr.permissions.available site scope) s) := by
    rw [Permissions.unions_eq, List.map_map, List.map_map]
    exact List.map_congr_left fun d _ => d.eval_union_held _ s σ.pre
  have hcongr : ∀ d e : Domain, d.collector.name = e.collector.name →
      d.unionOf (d.carried (tr.permissions.available site scope) s) =
        e.unionOf (e.carried (tr.permissions.available site scope) s) := fun d e he =>
    Domain.unionOf_carried_congr ((String.append_right_inj _).mp he) _ s
  rw [collect, runs_assignAll, hn, hv] at h
  subst h
  exact fun d hd => setAll_map_eq (fun d _ e _ => hcongr d e) hd

/-- A command of an assignment is all of it. -/
theorem Command.assignAll_eq_of_mem {targets : List String} {values : List Expr} {c : Command}
    (hc : c ∈ assignAll targets values) : assignAll targets values = [c] := by
  rw [assignAll] at hc ⊢
  split at hc
  · exact absurd hc List.not_mem_nil
  · rename_i h
    rw [if_neg h, List.mem_singleton.mp hc]

namespace Sequential

open ActionRefinement

variable {q : Sequential} {μ : Moment M}

/-- The added variables hold what was there at the moment. -/
structure Stored (q : Sequential) (μ : Moment M) (s : M.State) : Prop where
  globals : ∀ g ∈ q.globals, s (Snapshot.shadow g).name = μ.state g.name
  outputs : q.plan.action?.isSome → ∀ o ∈ q.source.outputs,
    s (oldOutput o).name = μ.state o.name
  permissions : q.setting.trusted = false → ∀ d ∈ q.setting.permissions.domains.values,
    s d.collector.name =
      d.unionOf (d.carried (q.setting.permissions.available μ.site μ.scope) μ.state)

/-- The names of the added variables are kept for them: the copy does not write them, and none of
the variables whose values are stored has one of their names. -/
structure Reserved (q : Sequential) (σ : Surroundings M) : Prop where
  body : ∀ b ∈ q.source.blocks, ∀ c ∈ b.commands, ∀ v ∈ q.locals, v.name ∉ c.writes
  calls : ∀ v ∈ q.locals, v.name ∉ σ.globals
  globals : ∀ g ∈ q.globals, ∀ v ∈ q.locals, v.name ≠ g.name
  linear : ∀ u ∈ q.scope, u.isLinear = true → ∀ v ∈ q.locals, v.name ≠ u.name
  outputs : q.plan.action?.isSome → ∀ o ∈ q.source.outputs, ∀ v ∈ q.locals, v.name ≠ o.name

/-- The states differ in added variables only. -/
def Agrees (q : Sequential) (s t : M.State) : Prop :=
  ∀ x, (∀ v ∈ q.locals, v.name ≠ x) → t x = s x

theorem Agrees.refl (q : Sequential) (s : M.State) : q.Agrees s s := fun _ _ => rfl

theorem Agrees.trans {u : M.State} (h : q.Agrees s t) (h' : q.Agrees t u) : q.Agrees s u :=
  fun x hx => (h' x hx).trans (h x hx)

/-! ## The names of the added variables -/

theorem shadow_mem_locals {g : Variable} (hg : g ∈ q.globals) : Snapshot.shadow g ∈ q.locals :=
  mem_locals_of_mem_marks (shadow_mem_marks hg)

theorem collector_mem_locals (ht : q.setting.trusted = false) {d : Domain}
    (hd : d ∈ q.setting.permissions.domains.values) : d.collector ∈ q.locals := by
  refine List.mem_append_right _ ?_
  rw [interference_eq ht]
  exact List.mem_map_of_mem hd

/-- The letter by which copies of globals, copies of outputs and permissions differ. -/
def kind (x : String) : Option Char := x.toList[2]?

theorem kind_append {x y : String} (h : 2 < x.toList.length) : kind (x ++ y) = kind x := by
  rw [kind, String.toList_append, List.getElem?_append_left h, kind]

theorem kind_shadow (g : Variable) : kind (Snapshot.shadow g).name = some 's' := by
  rw [Snapshot.shadow_name, kind_append (by decide)]
  decide

theorem kind_oldOutput (o : Variable) : kind (oldOutput o).name = some 'o' := by
  rw [oldOutput, Variable.rename, kind_append (by decide)]
  decide

theorem kind_collector (d : Domain) : kind d.collector.name = some 'p' := by
  rw [Domain.collector, kind_append (by decide)]
  decide

/-! ## Storing one after the other -/

/-- The commands may change added variables of one kind only. -/
def Confined (q : Sequential) (k : Char) (s t : M.State) : Prop :=
  ∀ x, ((∀ v ∈ q.locals, v.name ≠ x) ∨ kind x ≠ some k) → t x = s x

theorem Confined.agrees {k : Char} (h : q.Confined k s t) : q.Agrees s t := fun x hx =>
  h x (.inl hx)

namespace Confined

variable {k : Char} (h : q.Confined k s t)

include h in
theorem shadow_eq (hk : k ≠ 's') (g : Variable) :
    t (Snapshot.shadow g).name = s (Snapshot.shadow g).name :=
  h _ (.inr fun he => hk (Option.some_inj.mp ((kind_shadow g).symm.trans he)).symm)

include h in
theorem oldOutput_eq (hk : k ≠ 'o') (o : Variable) : t (oldOutput o).name = s (oldOutput o).name :=
  h _ (.inr fun he => hk (Option.some_inj.mp ((kind_oldOutput o).symm.trans he)).symm)

include h in
theorem collector_eq (hk : k ≠ 'p') (d : Domain) : t d.collector.name = s d.collector.name :=
  h _ (.inr fun he => hk (Option.some_inj.mp ((kind_collector d).symm.trans he)).symm)

end Confined

theorem confined_update (h : Runs σ (Snapshot.update q.globals) s t) : q.Confined 's' s t := by
  intro x hx
  refine (Snapshot.runs_update h).2 x fun g hg he => ?_
  rcases hx with hx | hx
  · exact hx _ (shadow_mem_locals hg) he
  · exact hx (he ▸ kind_shadow g)

theorem confined_saveOutputs (h : Runs σ q.refinement.saveOutputs s t) : q.Confined 'o' s t := by
  intro x hx
  cases ha : q.plan.action? with
  | none =>
    rw [refinement, ha] at h
    rw [runs_nil.mp h]
  | some a =>
    rw [refinement_eq ha] at h
    refine (ActionRefinement.runs_saveOutputs h).2 x fun o ho he => ?_
    rcases hx with hx | hx
    · exact hx _ (mem_locals_of_mem_marks (oldOutput_mem_marks ha ho)) he
    · exact hx (he ▸ kind_oldOutput o)

theorem confined_collect {site : Site} {scope : List Variable}
    (h : Runs σ (q.interference.collect site scope) s t) : q.Confined 'p' s t := by
  intro x hx
  refine Interference.runs_collect h x fun v hv he => ?_
  rcases hx with hx | hx
  · exact hx v (List.mem_append_right _ hv) he
  · cases hi : q.interference with
    | trusted =>
      rw [hi] at hv
      exact absurd hv List.not_mem_nil
    | checked tr =>
      rw [hi] at hv
      obtain ⟨d, -, rfl⟩ := List.mem_map.mp hv
      exact hx (he ▸ kind_collector d)

namespace Reserved

variable (hr : q.Reserved σ)

include hr in
/-- Where nothing but added variables has changed, the globals are copied as they were. -/
theorem globals_of_runs_update (ha : q.Agrees μ.state s)
    (h : Runs σ (Snapshot.update q.globals) s t) :
    ∀ g ∈ q.globals, t (Snapshot.shadow g).name = μ.state g.name := by
  intro g hg
  rw [(Snapshot.runs_update h).1 g hg]
  exact ha _ (hr.globals g hg)

include hr in
theorem outputs_of_runs_saveOutputs (ha : q.Agrees μ.state s)
    (h : Runs σ q.refinement.saveOutputs s t) :
    q.plan.action?.isSome → ∀ o ∈ q.source.outputs, t (oldOutput o).name = μ.state o.name := by
  intro hs o ho
  obtain ⟨a, hq⟩ := Option.isSome_iff_exists.mp hs
  rw [refinement_eq hq] at h
  rw [(ActionRefinement.runs_saveOutputs h).1 o ho]
  exact ha _ (hr.outputs hs o ho)

include hr in
theorem permissions_of_runs_collect (ha : q.Agrees μ.state s) (hscope : μ.scope ⊆ q.scope)
    (h : Runs σ (q.interference.collect μ.site μ.scope) s t) :
    q.setting.trusted = false → ∀ d ∈ q.setting.permissions.domains.values,
      t d.collector.name =
        d.unionOf (d.carried (q.setting.permissions.available μ.site μ.scope) μ.state) := by
  intro ht d hd
  rw [interference_eq ht] at h
  rw [Interference.runs_collect_checked h d hd]
  refine congrArg _ (d.carried_congr fun v hv => ha _ ?_)
  obtain ⟨hl, hm⟩ := q.setting.permissions.of_mem_available hv
  exact hr.linear v (hscope hm) hl

include hr in
/-- Copying the globals, then the outputs, then the permissions stores all that was there. -/
theorem stored_of_runs {m n u : M.State} (ha : q.Agrees μ.state s) (hscope : μ.scope ⊆ q.scope)
    (hu : Runs σ (Snapshot.update q.globals) s m) (hm : q.Agrees m n)
    (hk : ∀ x, kind x = some 's' → n x = m x) (ho : Runs σ q.refinement.saveOutputs n u)
    (hc : Runs σ (q.interference.collect μ.site μ.scope) u t) :
    q.Stored μ t ∧ q.Agrees μ.state t := by
  have hn := (ha.trans (confined_update hu).agrees).trans hm
  have hagrees := hn.trans (confined_saveOutputs ho).agrees
  refine ⟨⟨fun g hg => ?_, fun hs o hmo => ?_, hr.permissions_of_runs_collect hagrees hscope hc⟩,
    hagrees.trans (confined_collect hc).agrees⟩
  · rw [(confined_collect hc).shadow_eq (by decide),
      (confined_saveOutputs ho).shadow_eq (by decide), hk _ (kind_shadow g)]
    exact hr.globals_of_runs_update ha hu g hg
  · rw [(confined_collect hc).oldOutput_eq (by decide)]
    exact hr.outputs_of_runs_saveOutputs hn ho hs o hmo

include hr in
/-- **A fragment begins with all that is there stored.** -/
theorem stored_beginStep (ha : q.Agrees μ.state s) (hscope : μ.scope = q.scope)
    (h : Runs σ (q.beginStep μ.site) s t) : q.Stored μ t ∧ q.Agrees μ.state t := by
  rw [beginStep, store, collect, ← hscope] at h
  obtain ⟨u, h, hc⟩ := runs_append.mp h
  obtain ⟨m, hu, ho⟩ := runs_append.mp h
  exact hr.stored_of_runs ha (hscope ▸ List.Subset.refl _) hu (.refl q m) (fun _ _ => rfl) ho hc

end Reserved

/-! ## Storing once more -/

/-- Only the added variables matter to what is stored. -/
theorem Stored.of_keeps (h : q.Stored μ s) (hk : ∀ v ∈ q.locals, t v.name = s v.name) :
    q.Stored μ t where
  globals g hg := (hk _ (shadow_mem_locals hg)).trans (h.globals g hg)
  outputs hs o ho := by
    obtain ⟨a, ha⟩ := Option.isSome_iff_exists.mp hs
    exact (hk _ (mem_locals_of_mem_marks (oldOutput_mem_marks ha ho))).trans (h.outputs hs o ho)
  permissions ht d hd := (hk _ (collector_mem_locals ht hd)).trans (h.permissions ht d hd)

/-- The command neither changes anything but added variables nor stores anything new, as long as
nothing else has changed. -/
def Refreshes (q : Sequential) (site : Site) (c : Command) : Prop :=
  c.isPredicate = true ∨ c ∈ q.touchGlobals ∨ c ∈ q.beginStep site

theorem saveOutputs_eq_of_mem {c : Command} (hc : c ∈ q.refinement.saveOutputs) :
    q.refinement.saveOutputs = [c] := by
  cases hq : q.refinement with
  | none =>
    rw [hq] at hc
    exact absurd hc List.not_mem_nil
  | some r =>
    rw [hq] at hc
    exact assignAll_eq_of_mem hc

theorem collect_eq_of_mem {site : Site} {c : Command} (hc : c ∈ q.collect site) :
    q.collect site = [c] := by
  rw [collect] at hc ⊢
  cases hi : q.interference with
  | trusted =>
    rw [hi] at hc
    exact absurd hc List.not_mem_nil
  | checked tr =>
    rw [hi] at hc
    exact assignAll_eq_of_mem hc

namespace Reserved

variable (hr : q.Reserved σ)

include hr in
theorem stored_of_step (hscope : μ.scope = q.scope) {c : Command} (hc : q.Refreshes μ.site c)
    (h : c.Step σ s t) (hs : q.Stored μ s ∧ q.Agrees μ.state s) :
    q.Stored μ t ∧ q.Agrees μ.state t := by
  obtain ⟨hs, ha⟩ := hs
  have hrun : Runs σ [c] s t := runs_singleton.mpr h
  rcases hc with hc | hc | hc
  · rw [hrun.eq_of_isPredicate (List.forall_mem_singleton.mpr hc)]
    exact ⟨hs, ha⟩
  · rw [← assignAll_eq_of_mem hc] at hrun
    rw [Apart.runs_touchGlobals hrun]
    exact ⟨hs, ha⟩
  rw [beginStep, store, List.mem_append, List.mem_append] at hc
  rcases hc with (hc | hc) | hc
  · rw [← assignAll_eq_of_mem hc] at hrun
    have hconf := confined_update hrun
    refine ⟨⟨hr.globals_of_runs_update ha hrun, fun hq o ho => ?_, fun ht d hd => ?_⟩,
      ha.trans hconf.agrees⟩
    · rw [hconf.oldOutput_eq (by decide), hs.outputs hq o ho]
    · rw [hconf.collector_eq (by decide), hs.permissions ht d hd]
  · rw [← saveOutputs_eq_of_mem hc] at hrun
    have hconf := confined_saveOutputs hrun
    refine ⟨⟨fun g hg => ?_, hr.outputs_of_runs_saveOutputs ha hrun, fun ht d hd => ?_⟩,
      ha.trans hconf.agrees⟩
    · rw [hconf.shadow_eq (by decide), hs.globals g hg]
    · rw [hconf.collector_eq (by decide), hs.permissions ht d hd]
  · rw [← collect_eq_of_mem hc, collect, ← hscope] at hrun
    have hconf := confined_collect hrun
    refine ⟨⟨fun g hg => ?_, fun hq o ho => ?_,
      hr.permissions_of_runs_collect ha (hscope ▸ List.Subset.refl _) hrun⟩,
      ha.trans hconf.agrees⟩
    · rw [hconf.shadow_eq (by decide), hs.globals g hg]
    · rw [hconf.oldOutput_eq (by decide), hs.outputs hq o ho]

include hr in
/-- Commands that store the same once more change nothing. -/
theorem stored_of_refreshes (hscope : μ.scope = q.scope) {cs : List Command}
    (hcs : ∀ c ∈ cs, q.Refreshes μ.site c) (h : Runs σ cs s t)
    (hs : q.Stored μ s ∧ q.Agrees μ.state s) : q.Stored μ t ∧ q.Agrees μ.state t := by
  induction cs generalizing s with
  | nil =>
    rw [runs_nil.mp h]
    exact hs
  | cons c cs ih =>
    obtain ⟨m, hc, h⟩ := h
    rw [List.forall_mem_cons] at hcs
    exact ih hcs.2 h (hr.stored_of_step hscope hcs.1 hc hs)

/-! ## The commands of the copy -/

include hr in
theorem notMem_writes {b : Block} (hb : b ∈ q.base.blocks) {c : Command} (hc : c ∈ b.commands)
    {v : Variable} (hv : v ∈ q.locals) : v.name ∉ c.writes := by
  cases hp : c.isPredicate with
  | true =>
    cases c with
    | assume e => exact List.not_mem_nil
    | assert e m? => exact List.not_mem_nil
    | _ => simp [Command.isPredicate, Command.predicate?] at hp
  | false =>
    obtain ⟨-, -, -, d, hd, -, hcd⟩ := exists_of_mem_commands_base hb hc hp
    exact hr.body d hd c hcd v hv

include hr in
/-- The commands of the copy leave alone what is stored. -/
theorem stored_of_base {b : Block} (hb : b ∈ q.base.blocks) {cs : List Command}
    (hcs : cs ⊆ b.commands) (h : Runs σ cs s t) (hs : q.Stored μ s) : q.Stored μ t :=
  hs.of_keeps fun v hv =>
    h.frame (fun _ hc => hr.notMem_writes hb (hcs hc) hv) (hr.calls v hv)

end Reserved

/-! ## The first commands of a fragment -/

/-- What a parallel call does before its aggregator is called. -/
def beforeCall (q : Sequential) (inLoop : Bool) (p : ParCall) : List Command :=
  if inLoop then []
  else if p.isRefining then q.refinement.endMarkedStep else q.refinement.endStep

/-- What a parallel call does after its aggregator has been called. -/
def afterCall (q : Sequential) (p : ParCall) (rest : List Command) : List Command :=
  q.refinement.assumeGate ++ q.beginStep (.command p.id) ++ rest

theorem afterParCall_eq (q : Sequential) (inLoop : Bool) (p : ParCall) (rest : List Command) :
    q.afterParCall inLoop p rest =
      q.beforeCall inLoop p ++ .call p.aggregatorCall :: q.afterCall p rest := by
  simp only [afterParCall, beforeCall, afterCall, List.append_assoc, List.cons_append]

/-- What the initial block does once the globals have arbitrary values. -/
def afterEntry (q : Sequential) : List Command :=
  q.setting.permissions.assumeDisjoint q.plan.entrySite q.source.inputs q.setting.globals ++
    ((q.plan.procedure.requires ++ q.setting.entryClauses q.layer q.plan).map fun c =>
      .assume (c.condition.subst q.plan.inputSubst)) ++
    (Snapshot.update q.globals ++ (q.refinement.initial ++
      q.interference.collect q.plan.entrySite q.source.inputs))

theorem commands_initialBlock (q : Sequential) (others : List Block) :
    (q.initialBlock others).commands = q.setting.havocGlobals ++ q.afterEntry := by
  simp only [initialBlock, initialBlockFrom, Setting.preconditions, afterEntry, List.append_assoc]

/-! ## The heads of loops -/

/-- Predicates, and touching the globals, change nothing. -/
theorem eq_of_runs_touches {cs : List Command}
    (hcs : ∀ c ∈ cs, c.isPredicate = true ∨ c ∈ q.touchGlobals) (h : Runs σ cs s t) : t = s := by
  induction cs generalizing s with
  | nil => exact h
  | cons c cs ih =>
    obtain ⟨m, hc, h⟩ := h
    rw [List.forall_mem_cons] at hcs
    have hrun : Runs σ [c] s m := runs_singleton.mpr hc
    have hm : m = s := by
      rcases hcs.1 with hp | ht
      · exact hrun.eq_of_isPredicate (List.forall_mem_singleton.mpr hp)
      · rw [← assignAll_eq_of_mem ht] at hrun
        exact Apart.runs_touchGlobals hrun
    rw [ih hcs.2 h, hm]

namespace Reserved

variable (hr : q.Reserved σ)

include hr in
/-- **At the head of a loop everything is stored as it was when the head was entered**, however
often the loop is opened. -/
theorem stored_opened {b : Block} (hb : b ∈ q.base.blocks) {n : Nat}
    (h : Runs σ ((q.openedCommands b.label)^[n + 1] b.commands) s t) :
    q.Stored ⟨s, q.headSite b.label, q.scope⟩ t := by
  let μ : Moment M := ⟨s, q.headSite b.label, q.scope⟩
  rw [iterate_openedCommands, runs_append] at h
  obtain ⟨m, hpredicates, h₁⟩ := h
  rw [List.replicate_succ, List.flatten_cons, List.append_assoc, List.append_assoc] at h₁
  obtain ⟨u, htouch, h₂⟩ := runs_append.mp h₁
  obtain ⟨v, hbegin, h₃⟩ := runs_append.mp h₂
  obtain ⟨w, hagain, h₄⟩ := runs_append.mp h₃
  have hm : m = s := hpredicates.eq_of_isPredicate fun c hc => isPredicate_of_mem_opened hc
  have hu : u = m := eq_of_runs_touches (fun c hc => .inr hc) htouch
  rw [hu, hm] at hbegin
  have hstored := hr.stored_beginStep (μ := μ) (.refl q s) rfl hbegin
  have hrest := hr.stored_of_refreshes (μ := μ) rfl (fun c hc => ?_) hagain hstored
  · exact hr.stored_of_base hb (fun c hc => List.mem_of_mem_drop hc) h₄ hrest.1
  · obtain ⟨ds, hds, hc⟩ := List.mem_flatten.mp hc
    rw [List.eq_of_mem_replicate hds] at hc
    exact .inr (List.mem_append.mp hc)

/-! ## Yields and parallel calls -/

include hr in
/-- **After a yield everything is stored as other threads have left it.** -/
theorem stored_afterHavoc {b : Block} (hb : b ∈ q.base.blocks) {id : CommandId}
    {rest : List Command} (hc : b.commands = .yield id :: rest)
    (h : Runs σ (q.afterHavoc id rest) s t) : q.Stored ⟨s, .command id, q.scope⟩ t := by
  rw [afterHavoc, List.append_assoc, List.append_assoc, runs_append] at h
  obtain ⟨m, hm, h₁⟩ := h
  obtain ⟨n, hn, h₂⟩ := runs_append.mp h₁
  obtain ⟨u, hu, h₃⟩ := runs_append.mp h₂
  obtain ⟨k, hk, h₄⟩ := runs_append.mp h₃
  obtain rfl := hm.eq_of_isPredicate fun _ hc => isPredicate_of_mem_assumeGate hc
  obtain rfl := hn.eq_of_isPredicate fun _ hc =>
    Permissions.isPredicate_of_mem_assumeDisjoint _ _ hc
  obtain rfl : k = u := hk.eq_of_isPredicate fun c hc => by
    obtain ⟨e, -, rfl⟩ := List.mem_map.mp hc
    rfl
  refine hr.stored_of_base hb (fun c hd => ?_) h₄
    (hr.stored_beginStep (μ := ⟨n, .command id, q.scope⟩) (.refl q n) rfl hu).1
  rw [hc]
  exact List.mem_cons_of_mem _ (List.mem_of_mem_drop hd)

include hr in
/-- **After a parallel call everything is stored as its aggregator has left it.** -/
theorem stored_afterCall {b : Block} (hb : b ∈ q.base.blocks) {p : ParCall}
    {rest : List Command} (hc : b.commands = .par p :: rest)
    (h : Runs σ (q.afterCall p rest) s t) : q.Stored ⟨s, .command p.id, q.scope⟩ t := by
  rw [afterCall, List.append_assoc, runs_append] at h
  obtain ⟨m, hm, h⟩ := h
  obtain ⟨n, hn, h⟩ := runs_append.mp h
  obtain rfl := hm.eq_of_isPredicate fun _ hc => isPredicate_of_mem_assumeGate hc
  refine hr.stored_of_base hb (fun c hd => ?_) h
    (hr.stored_beginStep (μ := ⟨m, .command p.id, q.scope⟩) (.refl q m) rfl hn).1
  rw [hc]
  exact List.mem_cons_of_mem _ hd

end Reserved

/-! ## The entry -/

/-- The flags are set before the outputs are copied. -/
theorem exists_runs_saveOutputs (h : Runs σ q.refinement.initial s t) :
    ∃ m, q.Agrees s m ∧ (∀ x, kind x = some 's' → m x = s x) ∧
      Runs σ q.refinement.saveOutputs m t := by
  cases ha : q.plan.action? with
  | none =>
    have hq : q.refinement = none := by rw [refinement, ha]; rfl
    rw [hq] at h ⊢
    exact ⟨s, .refl q s, fun _ _ => rfl, h⟩
  | some a =>
    rw [refinement_eq ha] at h
    obtain ⟨m, hf, hm⟩ := h
    have hframe : ∀ x, pc.name ≠ x → ok.name ≠ x → m x = s x := fun x hp hk => by
      rw [show m = Function.update (Function.update s pc.name (M.bool false)) ok.name
        (M.bool false) from hf, Function.update_of_ne hk.symm, Function.update_of_ne hp.symm]
    refine ⟨m, fun x hx => ?_, fun x hx => ?_, by rw [refinement_eq ha]; exact hm⟩
    · exact hframe x (hx _ (mem_locals_of_mem_marks (pc_mem_marks ha)))
        (hx _ (mem_locals_of_mem_marks (ok_mem_marks ha)))
    · refine hframe x ?_ ?_ <;> (rintro rfl; revert hx; decide)

namespace Reserved

variable (hr : q.Reserved σ)

include hr in
/-- **On entry everything is stored as it is then.** -/
theorem stored_afterEntry (h : Runs σ q.afterEntry s t) :
    q.Stored ⟨s, q.plan.entrySite, q.source.inputs⟩ t := by
  obtain ⟨m, hm, h⟩ := runs_append.mp h
  obtain ⟨n, hu, h⟩ := runs_append.mp h
  obtain ⟨u, hi, hc⟩ := runs_append.mp h
  obtain rfl : m = s := by
    refine hm.eq_of_isPredicate fun c hc => ?_
    rcases List.mem_append.mp hc with hc | hc
    · exact Permissions.isPredicate_of_mem_assumeDisjoint _ _ hc
    · obtain ⟨d, -, rfl⟩ := List.mem_map.mp hc
      rfl
  have hscope : q.source.inputs ⊆ q.scope := fun v hv =>
    List.mem_append_left _ (List.mem_append_left _ hv)
  obtain ⟨k, hk, hks, ho⟩ := exists_runs_saveOutputs hi
  exact (hr.stored_of_runs (μ := ⟨m, q.plan.entrySite, q.source.inputs⟩) (.refl q m) hscope hu hk
    hks ho hc).1

end Reserved

end Sequential

end LayerCheck
