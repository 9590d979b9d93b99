import LayerCheck.Proofs.Flow.Paths
import LayerCheck.Proofs.Lists
import LayerCheck.Proofs.Progress

/-!
# What an accepted layer has passed

Every check of `Setting.plan` that succeeds leaves a fact behind.  `Setting.Planned` collects what
is known of a plan, `Setting.plan_eq_ok` gives it for all plans of an accepted layer.

* `Implementation.checkBlocks_eq_ok`, `Implementation.checkAdded_eq_ok`: what single checks say.
* `Setting.Planned`: all that has been checked for a copy.
* `Setting.plan_eq_ok_iff`: which plans an accepted layer has.
* `Setting.exists_plan`, `Setting.exists_copy`: plans and recorded copies belong to each other.
* `Setting.get?_transformProgram`: the implementation that stands for a plan afterwards.
-/

namespace LayerCheck

/-! ## Computations that may fail -/

namespace Except

variable {ε α β : Type}

theorem bind_eq_ok {x : Except ε α} {f : α → Except ε β} {b : β} :
    x >>= f = .ok b ↔ ∃ a, x = .ok a ∧ f a = .ok b := by
  cases x with
  | error e =>
    constructor
    · intro h
      cases h
    · intro hx
      obtain ⟨a, h, -⟩ := hx
      cases h
  | ok a =>
    constructor
    · exact fun h => ⟨a, rfl, h⟩
    · intro hx
      obtain ⟨a', h, hf⟩ := hx
      cases h
      exact hf

theorem bind_congr {x : Except ε α} {f g : α → Except ε β} (h : ∀ a, x = .ok a → f a = g a) :
    x >>= f = x >>= g := by
  cases x with
  | error e => rfl
  | ok a => exact h a rfl

theorem pure_eq_ok {a b : α} : (pure a : Except ε α) = .ok b ↔ a = b :=
  ⟨fun h => by cases h; rfl, fun h => by rw [h]; rfl⟩

theorem forM_eq_ok {f : α → Except ε Unit} {l : List α} :
    l.forM f = .ok () ↔ ∀ a ∈ l, f a = .ok () := by
  induction l with
  | nil => exact ⟨fun _ a ha => absurd ha List.not_mem_nil, fun _ => rfl⟩
  | cons a l ih =>
    rw [List.forall_mem_cons, ← ih]
    show (f a >>= fun _ => l.forM f) = .ok () ↔ _
    rw [bind_eq_ok]
    exact ⟨fun ⟨_, ha, hl⟩ => ⟨ha, hl⟩, fun ⟨ha, hl⟩ => ⟨(), ha, hl⟩⟩

theorem mapM_eq_ok {f : α → Except ε β} {l : List α} {bs : List β} :
    l.mapM f = .ok bs ↔ List.Forall₂ (fun a b => f a = .ok b) l bs := by
  induction l generalizing bs with
  | nil =>
    rw [List.mapM_nil, pure_eq_ok, List.forall₂_nil_left_iff, eq_comm]
  | cons a l ih =>
    simp only [List.mapM_cons, bind_eq_ok, pure_eq_ok, ih, List.forall₂_cons_left_iff]
    constructor
    · intro h
      obtain ⟨b, hb, bs', hbs, rfl⟩ := h
      exact ⟨b, bs', hb, hbs, rfl⟩
    · intro h
      obtain ⟨b, bs', hb, hbs, rfl⟩ := h
      exact ⟨b, hb, bs', hbs, rfl⟩

end Except

/-! ## Single checks -/

theorem Table.require_eq_ok {ν : Type} {t : Table String ν} {k : String} {e : String → LayerError}
    {v : ν} : t.require k e = .ok v ↔ t.get? k = some v := by
  rw [require]
  cases t.get? k <;> simp

theorem checkArity_eq_ok {subject : AritySubject} {name : String} {expected found : Nat}
    {u : Unit} :
    checkArity subject name expected found = .ok u ↔ expected = found := by
  rw [checkArity]
  split <;> simp [*]

theorem checkAll_eq_ok {α : Type} {fault? : α → Option LayerError} {l : List α} {u : Unit} :
    checkAll fault? l = .ok u ↔ ∀ a ∈ l, fault? a = none := by
  rw [checkAll, ← List.findSome?_eq_none_iff]
  cases l.findSome? fault? <;> simp

namespace Implementation

variable {i : Implementation}

theorem checkBlocks_eq_ok {u : Unit} : i.checkBlocks = .ok u ↔ i.blocks ≠ [] ∧ i.Closed := by
  have hd : (checkAll (fun b : Block => (b.successors.find? (· ∉ i.labels)).map
      (.danglingTarget i.name b.label)) i.blocks = .ok u) ↔ i.Closed := by
    rw [checkAll_eq_ok]
    simp [Closed]
  rw [checkBlocks]
  cases hb : i.blocks with
  | nil => simp [throw, throwThe, MonadExceptOf.throw, Except.bind_eq_ok]
  | cons b bs =>
    rw [hb] at hd
    simpa using hd

theorem checkLabels_eq_ok {u : Unit} :
    i.checkLabels = .ok u ↔ ∀ l ∈ i.labels, l ∉ Label.reserved := by
  rw [checkLabels, checkAll_eq_ok]
  simp

theorem checkAdded_eq_ok {seen ls : List String} {u : Unit} :
    i.checkAdded seen ls = .ok u ↔
      ls.Nodup ∧ ∀ l ∈ ls, l ∉ Label.reserved ∧ l ∉ i.labels ∧ l ∉ seen := by
  induction ls generalizing seen with
  | nil => simp [checkAdded]
  | cons l ls ih =>
    rw [checkAdded]
    split
    · rename_i h
      constructor
      · intro he
        cases he
      · intro hl
        obtain ⟨hr, hi, hs⟩ := hl.2 l List.mem_cons_self
        rcases h with h | h | h
        · exact absurd h hr
        · exact absurd h hi
        · exact absurd h hs
    · rename_i h
      rw [not_or, not_or] at h
      rw [ih, List.nodup_cons, List.forall_mem_cons]
      constructor
      · intro hx
        obtain ⟨hn, hls⟩ := hx
        refine ⟨⟨fun hl => (hls l hl).2.2 List.mem_cons_self, hn⟩, h, fun m hm => ?_⟩
        obtain ⟨hr, hi, hs⟩ := hls m hm
        exact ⟨hr, hi, fun h => hs (List.mem_cons_of_mem _ h)⟩
      · intro hx
        obtain ⟨⟨hl, hn⟩, -, hls⟩ := hx
        refine ⟨hn, fun m hm => ?_⟩
        obtain ⟨hr, hi, hs⟩ := hls m hm
        refine ⟨hr, hi, fun h => ?_⟩
        rcases List.mem_cons.mp h with rfl | h
        · exact hl hm
        · exact hs h

end Implementation

/-! ## Plans -/

namespace Setting

variable {s : Setting} {l : Layer} {p : Program}

/-- All that is known of the plan of the copy `name`. -/
structure Planned (s : Setting) (l : Layer) (p : Program) (name : String) (origin : Origin)
    (plan : Plan) : Prop where
  implementation : p.implementations.get? name = some plan.implementation
  origin_eq : plan.origin = origin
  yielding : s.facts.procedures.get? origin.procedure = some plan.yielding
  upper : l ≤ plan.yielding.upper
  procedure : p.procedures.get? plan.implementation.procedure = some plan.procedure
  inputs : plan.procedure.inputs.length = plan.implementation.inputs.length
  outputs : plan.procedure.outputs.length = plan.implementation.outputs.length
  calls : ∀ c ∈ plan.yielding.requires ++ plan.yielding.ensures,
    s.facts.checkInvariantCall c = .ok ()
  nonempty : plan.implementation.blocks ≠ []
  closed : plan.implementation.Closed
  action : s.refinedAction l plan.yielding plan.implementation = .ok plan.action?
  concurrent : plan.isAtomicAt l = false → s.checkConcurrent l p plan.implementation = .ok ()

theorem planCopy_eq_ok {name : String} {origin : Origin} {plan : Plan}
    (h : s.planCopy l p name origin = .ok plan) : s.Planned l p name origin plan := by
  simp only [planCopy, Except.bind_eq_ok, Table.require_eq_ok] at h
  obtain ⟨i, hi, y, hy, h⟩ := h
  split at h
  · cases h
  · rename_i hu
    simp only [Except.bind_eq_ok, Table.require_eq_ok, checkArity_eq_ok] at h
    obtain ⟨q, hq, -, hin, -, hout, ⟨⟩, hcalls, _, hb, action?, ha, h⟩ := h
    obtain ⟨hne, hcl⟩ := Implementation.checkBlocks_eq_ok.mp hb
    cases hat : y.isAtomicAt l with
    | true =>
      rw [if_pos hat, Except.pure_eq_ok] at h
      subst h
      exact ⟨hi, rfl, hy, Nat.le_of_not_lt hu, hq, hin, hout, Except.forM_eq_ok.mp hcalls, hne,
        hcl, ha, fun hf => absurd (hat.symm.trans hf) (by decide)⟩
    | false =>
      rw [if_neg (by rw [hat]; decide)] at h
      simp only [Except.bind_eq_ok, Except.pure_eq_ok] at h
      obtain ⟨⟨⟩, hc, rfl⟩ := h
      exact ⟨hi, rfl, hy, Nat.le_of_not_lt hu, hq, hin, hout, Except.forM_eq_ok.mp hcalls, hne,
        hcl, ha, fun _ => hc⟩

theorem checkConcurrent_eq_ok {i : Implementation} (h : s.checkConcurrent l p i = .ok ()) :
    i.checkLabels = .ok () ∧
      i.checkAdded [] ((s.preparedBlocks i).values.map Block.label) = .ok () ∧
      i.checkReducible = .ok () ∧ ∀ b ∈ i.blocks, s.checkBlock l p i b = .ok () := by
  simp only [checkConcurrent, Except.bind_eq_ok] at h
  obtain ⟨⟨⟩, hl, ⟨⟩, ha, ⟨⟩, hr, hb⟩ := h
  exact ⟨hl, ha, hr, Except.forM_eq_ok.mp hb⟩

/-- Whether the flow is reducible takes a search to see; all other checks are read off the copy. -/
theorem checkConcurrent_of_reducible {i : Implementation} (hr : i.flow.isReducible = true)
    (h : (do
      i.checkLabels
      i.checkAdded [] ((s.preparedBlocks i).values.map Block.label)
      i.blocks.forM (s.checkBlock l p i)) = .ok ()) : s.checkConcurrent l p i = .ok () := by
  rw [checkConcurrent, Implementation.checkReducible, if_pos hr]
  exact h

/-- The plans of a layer are those of its copies.  What may be left to be performed later has been
looked up too, unless interference is trusted. -/
theorem plan_eq_ok_iff {plans : List Plan} : s.plan l p = .ok plans ↔
    List.Forall₂ (fun e plan => s.planCopy l p e.1 e.2 = .ok plan) s.copies.implementations.entries
        plans ∧
      (s.trusted = false → ∀ target ∈ s.facts.pendingTargets l, s.checkPending p target = .ok ()) := by
  simp only [Setting.plan, Except.bind_eq_ok, Except.mapM_eq_ok]
  cases ht : s.trusted with
  | true => simp [Except.pure_eq_ok]
  | false =>
    simp only [Bool.false_eq_true, if_false, Except.bind_eq_ok, Except.pure_eq_ok, forall_true_left,
      ← Except.forM_eq_ok]
    constructor
    · intro h
      obtain ⟨plans, hp, ⟨⟩, hf, rfl⟩ := h
      exact ⟨hp, hf⟩
    · intro h
      obtain ⟨hp, hf⟩ := h
      exact ⟨plans, hp, (), hf, rfl⟩

/-- A layer with one copy, of which the blocks are left to be checked. -/
theorem plan_singleton {name : String} {origin : Origin} {plan : Plan}
    (he : s.copies.implementations.entries = [(name, origin)])
    (hp : s.planCopy l p name origin = do
      s.checkConcurrent l p plan.implementation
      return plan)
    (hc : s.checkConcurrent l p plan.implementation = .ok ())
    (ht : (s.facts.pendingTargets l).forM (s.checkPending p) = .ok ()) :
    s.plan l p = .ok [plan] := by
  refine plan_eq_ok_iff.mpr ⟨?_, fun _ => Except.forM_eq_ok.mp ht⟩
  rw [he]
  refine .cons ?_ .nil
  rw [hp, hc]
  rfl

/-- **Every plan of an accepted layer belongs to a copy and has passed all checks.** -/
theorem plan_eq_ok {plans : List Plan} (h : s.plan l p = .ok plans) :
    List.Forall₂ (fun e plan => s.Planned l p e.1 e.2 plan) s.copies.implementations.entries
      plans :=
  (plan_eq_ok_iff.mp h).1.imp fun _ _ => planCopy_eq_ok

/-! ## The implementation of a plan -/

/-- The plans stand in the order in which the copies are recorded. -/
theorem map_name_eq {plans : List Plan} (h : s.plan l p = .ok plans) :
    plans.map Plan.name = s.copies.implementations.keys := by
  have hf := plan_eq_ok h
  rw [Table.keys]
  generalize s.copies.implementations.entries = es at hf
  clear h
  induction hf with
  | nil => rfl
  | cons hp _ ih =>
    rw [List.map_cons, List.map_cons, ih, Plan.name,
      p.implementations_keyed.name_eq hp.implementation]

theorem nodup_names {plans : List Plan} (h : s.plan l p = .ok plans) :
    (plans.map Plan.name).Nodup := by
  rw [map_name_eq h]
  exact s.copies.implementations.keys_nodup

/-- **Every recorded copy has a plan under its name.** -/
theorem exists_plan {plans : List Plan} (h : s.plan l p = .ok plans) {name : String}
    {origin : Origin} (ho : s.copies.implementations.get? name = some origin) :
    ∃ plan ∈ plans, plan.name = name ∧ s.Planned l p name origin plan := by
  obtain ⟨plan, hm, hp⟩ := (plan_eq_ok h).exists_of_mem_left (Table.get?_eq_some_iff.mp ho)
  exact ⟨plan, hm, p.implementations_keyed.name_eq hp.implementation, hp⟩

/-- Every plan belongs to a recorded copy. -/
theorem exists_copy {plans : List Plan} (h : s.plan l p = .ok plans) {plan : Plan}
    (hp : plan ∈ plans) : ∃ origin, s.copies.implementations.get? plan.name = some origin ∧
      s.Planned l p plan.name origin plan := by
  obtain ⟨⟨name, origin⟩, he, hpl⟩ := (plan_eq_ok h).exists_of_mem_right hp
  have hn : plan.name = name := p.implementations_keyed.name_eq hpl.implementation
  exact ⟨origin, hn ▸ Table.get?_eq_some_iff.mpr he, hn ▸ hpl⟩

/-- **The program has what a plan of an accepted layer says.** -/
theorem present {plans : List Plan} (h : s.plan l p = .ok plans) :
    ∀ plan ∈ plans, plan.Present p := by
  intro plan hp
  obtain ⟨origin, -, hpl⟩ := exists_copy h hp
  exact ⟨hpl.implementation, hpl.procedure⟩

/-- **No look-up of an accepted layer fails, so it does what its plans say.** -/
theorem transform_eq_ok {out : Program × LayerOutput} :
    s.transform l p = .ok out ↔ ∃ plans, s.plan l p = .ok plans ∧
      out = (s.transformProgram l plans p,
        s.output l plans (s.transformProgram l plans p).procedures) := by
  constructor
  · intro h
    obtain ⟨plans, hp, -⟩ := Except.bind_eq_ok.mp h
    rw [transform_of_present hp (present hp) (nodup_names hp)] at h
    exact ⟨plans, hp, (Except.ok.inj h).symm⟩
  · intro h
    obtain ⟨plans, hp, rfl⟩ := h
    exact transform_of_present hp (present hp) (nodup_names hp)

theorem implementations_transformProgram (plans : List Plan) (p : Program) :
    (s.transformProgram l plans p).implementations =
      p.implementations.insertAll (plans.map fun q => (q.name, s.transformCopy l q)) := rfl

/-- Implementations keep their places. -/
theorem keys_transformProgram {plans : List Plan} (h : s.plan l p = .ok plans) :
    (s.transformProgram l plans p).implementations.keys = p.implementations.keys := by
  rw [implementations_transformProgram]
  refine Table.keys_insertAll fun e he => ?_
  obtain ⟨plan, hm, rfl⟩ := List.mem_map.mp he
  obtain ⟨origin, -, hpl⟩ := exists_copy h hm
  exact Table.mem_keys.mpr ⟨_, hpl.implementation⟩

/-- What is no copy is left alone. -/
theorem get?_transformProgram_of_notMem {plans : List Plan}
    (h : s.plan l p = .ok plans) {name : String} (hn : name ∉ s.copies.implementations.keys) :
    (s.transformProgram l plans p).implementations.get? name = p.implementations.get? name := by
  rw [implementations_transformProgram]
  refine Table.get?_insertAll_of_notMem ?_ _
  rw [List.map_map]
  exact map_name_eq h ▸ hn

/-- **After the layer, the name of a plan stands for the copy that was made of it.** -/
theorem get?_transformProgram {plans : List Plan} (h : s.plan l p = .ok plans)
    {plan : Plan} (hp : plan ∈ plans) :
    (s.transformProgram l plans p).implementations.get? plan.name =
      some (s.transformCopy l plan) := by
  have hn : ((plans.map fun q => (q.name, s.transformCopy l q)).map Prod.fst).Nodup := by
    rw [List.map_map]
    exact nodup_names h
  rw [implementations_transformProgram]
  exact Table.get?_insertAll_of_mem hn (List.mem_map_of_mem hp) _

end Setting

end LayerCheck
