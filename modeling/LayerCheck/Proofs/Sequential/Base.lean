import LayerCheck.Proofs.Permission.Disjointness
import LayerCheck.Proofs.Plan
import LayerCheck.Proofs.Sequential.Chains
import Mathlib.Data.Fin.Tuple.Take
import Mathlib.Data.List.Permutation

/-!
# The body before it is made sequential

`Sequential.base` is the copy with its disjointness assumptions, split and without unreachable
blocks.  Of an accepted layer it is known that its labels are none of those that are added later; if
the labels of the copy are distinct, so are they, and every chain of a reachable block is there.

* `Sequential.Produces`: the layer is accepted and a copy of it is made sequential.
* `Sequential.Labelled`, `Sequential.Accepted`, `Sequential.WellFormed`: what acceptance says about
  the blocks of the copy, whatever labels they have, and if these are distinct.
* `Sequential.of_mem_commands_base`: where the preemption points of the base stand.
* `Sequential.WellFormed.mem_blocks_base`: the blocks of the base are those of the chains.
-/

namespace LayerCheck

/-- The table of copied blocks has no entries for blocks that the implementation does not have. -/
def Copies.Faithful (c : Copies) (i : Implementation) : Prop :=
  ∀ r ∈ c.blocks.keys, r.implementation = i.name → r.label ∈ i.labels

theorem Command.leadingPredicates_firstSegment (cs : List Command) :
    leadingPredicates (firstSegment cs) = leadingPredicates cs := by
  induction cs with
  | nil => rfl
  | cons c cs ih =>
    cases hc : c.isPreemption with
    | true =>
      have hp : c.isPredicate = false := by
        cases h : c.isPredicate with
        | true => rw [isPreemption_of_isPredicate h] at hc; cases hc
        | false => rfl
      rw [firstSegment_cons_of_isPreemption hc]
      simp [leadingPredicates, hp]
    | false =>
      rw [firstSegment_cons_of_not hc]
      cases hp : c.isPredicate with
      | true => simpa [leadingPredicates, hp] using ih
      | false => simp [leadingPredicates, hp]

namespace Sequential

/-- The layer is accepted, and `j` is what has become of the planned copy. -/
structure Produces (q : Sequential) (p : Program) (out : Program × LayerOutput)
    (j : Implementation) : Prop where
  accepted : q.setting.transform q.layer p = .ok out
  planned : ∃ plans, q.setting.plan q.layer p = .ok plans ∧ q.plan ∈ plans
  concurrent : q.plan.isAtomicAt q.layer = false
  result : out.1.implementations.get? q.name = some j

/-- The copy before the layer. -/
abbrev source (q : Sequential) : Implementation := q.plan.implementation

/-- The labels of the prepared checks of the copy. -/
def preparedLabels (q : Sequential) : List String :=
  (q.setting.preparedBlocks q.source).values.map Block.label

/-- The copy with its disjointness assumptions. -/
def assumed (q : Sequential) : Implementation :=
  q.source.withDisjointness q.setting.permissions q.setting.copies q.setting.yielding

/-- The commands of a block of the copy with its disjointness assumptions. -/
def assumedCommands (q : Sequential) (c : Block) : List Command :=
  q.source.assumedCommands q.setting.permissions q.setting.copies q.setting.yielding c

/-- The chains of the blocks of the copy. -/
def cuts (q : Sequential) : List Cut := q.assumed.cuts q.preparedLabels

/-- What is checked of the labels and jumps of a copy that is made sequential. -/
structure Labelled (q : Sequential) : Prop where
  closed : q.source.Closed
  nonempty : q.source.blocks ≠ []
  unreserved : ∀ l ∈ q.source.labels, l ∉ Label.reserved
  prepared_nodup : q.preparedLabels.Nodup
  prepared : ∀ l ∈ q.preparedLabels, l ∉ Label.reserved ∧ l ∉ q.source.labels

/-- What is known of the blocks of a copy that is made sequential, whatever labels they have. -/
structure Accepted (q : Sequential) : Prop extends q.Labelled where
  faithful : q.setting.copies.Faithful q.source

/-- What is known of the blocks of a copy with distinct labels that is made sequential. -/
structure WellFormed (q : Sequential) : Prop extends q.Accepted where
  nodup : q.source.labels.Nodup

variable {q : Sequential}

/-- If interference is not trusted, it is checked by the dispatcher of the layer. -/
theorem interference_eq (ht : q.setting.trusted = false) :
    q.interference =
      .checked ⟨q.setting.permissions, q.globals, Dispatcher.name q.layer⟩ := by
  rw [interference, Setting.interference, Setting.interferenceBy, if_neg (by rw [ht]; decide)]
  rfl

namespace Produces

variable {p : Program} {out : Program × LayerOutput} {j : Implementation}

/-- The plans of the layer are carried out. -/
theorem out_eq (h : q.Produces p out j) {plans : List Plan}
    (hp : q.setting.plan q.layer p = .ok plans) :
    out = (q.setting.transformProgram q.layer plans p, q.setting.output q.layer plans
      (q.setting.transformProgram q.layer plans p).procedures) := by
  obtain ⟨plans', hp', ho⟩ := Setting.transform_eq_ok.mp h.accepted
  rw [hp, Except.ok.injEq] at hp'
  rw [ho, hp']

theorem eq_implementation (h : q.Produces p out j) : j = q.implementation := by
  obtain ⟨plans, hp, hm⟩ := h.planned
  have hr := h.result
  rw [h.out_eq hp] at hr
  have hg := Setting.get?_transformProgram hp hm
  rw [Sequential.name] at hr
  rw [hg, Option.some_inj] at hr
  rw [← hr, Setting.transformCopy_of_concurrent h.concurrent]

/-- A copy that is planned is made sequential. -/
theorem of_plan {plans : List Plan} (hp : q.setting.plan q.layer p = .ok plans)
    (hm : q.plan ∈ plans) (hc : q.plan.isAtomicAt q.layer = false) :
    q.Produces p (q.setting.transformProgram q.layer plans p, q.setting.output q.layer plans
      (q.setting.transformProgram q.layer plans p).procedures) q.implementation where
  accepted := Setting.transform_eq_ok.mpr ⟨plans, hp, rfl⟩
  planned := ⟨plans, hp, hm⟩
  concurrent := hc
  result := by
    have hg := Setting.get?_transformProgram hp hm
    rwa [Setting.transformCopy_of_concurrent hc] at hg

/-- All planned copies that are not atomic are made sequential. -/
theorem of_concurrent {s : Setting} {l : Layer} {plans : List Plan}
    (hp : s.plan l p = .ok plans) {plan : Plan} (hm : plan ∈ Setting.concurrent l plans) :
    Produces { setting := s, layer := l, plan } p
      (s.transformProgram l plans p, s.output l plans (s.transformProgram l plans p).procedures)
      (implementation { setting := s, layer := l, plan }) := by
  obtain ⟨hm, hc⟩ := List.mem_filter.mp hm
  exact .of_plan hp hm (by simpa using hc)

theorem exists_planned (h : q.Produces p out j) :
    ∃ name origin, q.setting.Planned q.layer p name origin q.plan := by
  obtain ⟨plans, hp, hm⟩ := h.planned
  obtain ⟨e, -, he⟩ := (Setting.plan_eq_ok hp).exists_of_mem_right hm
  exact ⟨e.1, e.2, he⟩

theorem labelled (h : q.Produces p out j) : q.Labelled := by
  obtain ⟨name, origin, hp⟩ := h.exists_planned
  obtain ⟨hl, ha, -, -⟩ := Setting.checkConcurrent_eq_ok (hp.concurrent h.concurrent)
  obtain ⟨hpn, hpl⟩ := Implementation.checkAdded_eq_ok.mp ha
  refine ⟨hp.closed, hp.nonempty, Implementation.checkLabels_eq_ok.mp hl, hpn, ?_⟩
  exact fun l hl => ⟨(hpl l hl).1, (hpl l hl).2.1⟩

theorem accepted_blocks (h : q.Produces p out j) (hf : q.setting.copies.Faithful q.source) :
    q.Accepted :=
  ⟨h.labelled, hf⟩

/-- **The blocks of a copy of an accepted layer are in order.** -/
theorem wellFormed (h : q.Produces p out j) (hn : q.source.labels.Nodup)
    (hf : q.setting.copies.Faithful q.source) : q.WellFormed :=
  ⟨h.accepted_blocks hf, hn⟩

end Produces

/-! ## The base -/

theorem labels_assumed (q : Sequential) : q.assumed.labels = q.source.labels :=
  Implementation.labels_withDisjointness _ _ _

theorem entryLabel?_assumed (q : Sequential) : q.assumed.entryLabel? = q.source.entryLabel? :=
  Implementation.entryLabel?_withDisjointness _ _ _

theorem base_eq (q : Sequential) : q.base = (q.assumed.split q.preparedLabels).prune := by
  have hp : q.setting.preparedBlocks q.assumed = q.setting.preparedBlocks q.source := by
    rw [Setting.preparedBlocks, Setting.preparedBlocks, assumed,
      Implementation.parCalls_withDisjointness]
  rw [preparedLabels, ← hp, base]
  rfl

/-- Every block of the base stands in a chain. -/
theorem exists_chain {b : Block} (hb : b ∈ q.base.blocks) : ∃ s ∈ q.cuts, b ∈ s.chain := by
  rw [q.base_eq] at hb
  exact Implementation.mem_blocks_split_iff.mp (List.mem_of_mem_filter hb)

/-- Every chain comes from a block of the copy, with assumptions. -/
theorem exists_assumed {s : Cut} (hs : s ∈ q.cuts) :
    ∃ c ∈ q.source.blocks, ∃ d ∈ q.assumed.blocks,
      Block.Assumed q.setting.permissions q.setting.yielding q.scope c d ∧ s.Spells d := by
  obtain ⟨d, hd, hsd⟩ := Implementation.spells_of_mem_cuts hs
  obtain ⟨c, hc, hcd⟩ :=
    (Implementation.forall₂_withDisjointness _ _ _ _).exists_of_mem_right hd
  exact ⟨c, hc, d, hd, hcd, hsd⟩

/-- A preemption point of the base stands at the head of a block with a new label. -/
theorem of_mem_commands_base {b : Block} (hb : b ∈ q.base.blocks) :
    (b.label ∈ q.source.labels ∧ ∀ c ∈ b.commands, c.isPreemption = false) ∨
      (b.label ∉ q.source.labels ∧ ∃ m rest, b.commands = m :: rest ∧ m.isPreemption = true ∧
        ∀ c ∈ rest, c.isPreemption = false) := by
  obtain ⟨s, hs, hbs⟩ := exists_chain hb
  obtain ⟨c, hc, d, -, hcd, hsd⟩ := exists_assumed hs
  have hm := hsd.commands
  rw [Cut.chain, List.map_cons, Command.segments, List.cons.injEq] at hm
  rcases List.mem_cons.mp hbs with rfl | hp
  · left
    rw [hsd.label, hcd.label, hm.1]
    refine ⟨Implementation.mem_labels.mpr ⟨c, hc, rfl⟩, ?_⟩
    exact fun d hd => Command.isPreemption_of_mem_firstSegment hd
  · right
    have hf := Implementation.label_notMem_of_mem_pieces hs (List.mem_reverse.mp hp)
    rw [q.labels_assumed] at hf
    obtain ⟨-, m, rest, -, hpm, hseg⟩ :=
      Command.of_mem_laterSegments (hm.2 ▸ List.mem_map_of_mem hp)
    exact ⟨hf, m, _, hseg, hpm, fun c hc => Command.isPreemption_of_mem_firstSegment hc⟩

/-- A block with a preemption point at its head has a new label. -/
theorem label_notMem_of_head {b : Block} (hb : b ∈ q.base.blocks) {m : Command}
    {rest : List Command} (hc : b.commands = m :: rest) (hm : m.isPreemption = true) :
    b.label ∉ q.source.labels := by
  rcases of_mem_commands_base hb with ⟨-, hp⟩ | ⟨hn, -⟩
  · exact absurd (hp m (hc ▸ List.mem_cons_self)) (by simp [hm])
  · exact hn

/-- The commands of the base other than predicates are commands of the copy. -/
theorem exists_of_mem_commands_base {b : Block} (hb : b ∈ q.base.blocks) {c : Command}
    (hc : c ∈ b.commands) (hp : c.isPredicate = false) :
    ∃ s ∈ q.cuts, b ∈ s.chain ∧ ∃ d ∈ q.source.blocks, s.block.label = d.label ∧
      c ∈ d.commands := by
  obtain ⟨s, hs, hbs⟩ := exists_chain hb
  obtain ⟨d, hd, e, -, hde, hse⟩ := exists_assumed hs
  have hm : c ∈ e.commands := by
    rw [← Command.flatten_segments e.commands, ← hse.commands]
    exact List.mem_flatten.mpr ⟨b.commands, List.mem_map_of_mem hbs, hc⟩
  exact ⟨s, hs, hbs, d, hd, hse.label.trans hde.label, hde.mem_of_mem hm hp⟩

namespace Labelled

theorem closed_assumed (h : q.Labelled) : q.assumed.Closed :=
  Implementation.closed_withDisjointness _ _ _ h.closed

theorem closed_split (h : q.Labelled) : (q.assumed.split q.preparedLabels).Closed :=
  Implementation.closed_split h.closed_assumed _

/-- The labels of the base are neither reserved nor those of prepared checks. -/
theorem of_mem_labels_base (h : q.Labelled) {l : String} (hl : l ∈ q.base.labels) :
    l ∉ Label.reserved ∧ l ∉ q.preparedLabels := by
  rw [q.base_eq] at hl
  have hs := (Implementation.labels_prune_sublist _).subset hl
  rcases Implementation.mem_labels_split hs with hi | ⟨-, hp, hr⟩
  · rw [q.labels_assumed] at hi
    exact ⟨h.unreserved l hi, fun hp => (h.prepared l hp).2 hi⟩
  · exact ⟨hr, hp⟩

end Labelled

namespace Accepted

theorem mem_labels_of_mem_headers (h : q.Accepted) {l : String} (hl : l ∈ q.headers) :
    l ∈ q.source.labels := by
  have hs : (q.loop? l).isSome := (List.mem_filter.mp hl).2
  have hk : (⟨q.name, l⟩ : BlockRef) ∈ q.setting.copies.blocks.keys := by
    rw [← Table.isSome_get?_iff]
    cases hg : q.setting.copies.blocks.get? ⟨q.name, l⟩ with
    | none => simp [loop?, Copies.activeLoop?, Copies.yieldingLoop?, Copies.source?, hg] at hs
    | some r => rfl
  exact h.faithful _ hk rfl

end Accepted

namespace WellFormed

/-! ## The base of a copy with distinct labels -/

theorem nodup_assumed (h : q.WellFormed) : q.assumed.labels.Nodup := by
  rw [q.labels_assumed]
  exact h.nodup

theorem nodup_split (h : q.WellFormed) : (q.assumed.split q.preparedLabels).labels.Nodup :=
  Implementation.nodup_labels_split h.nodup_assumed _

theorem nodup_base (h : q.WellFormed) : q.base.labels.Nodup := by
  rw [q.base_eq]
  exact (Implementation.labels_prune_sublist _).nodup h.nodup_split

theorem closed_base (h : q.WellFormed) : q.base.Closed := by
  rw [q.base_eq]
  exact Implementation.closed_prune h.nodup_split h.closed_split

/-- **The blocks of the base are the reachable blocks of the chains.** -/
theorem mem_blocks_base (h : q.WellFormed) {b : Block} :
    b ∈ q.base.blocks ↔ (∃ s ∈ q.cuts, b ∈ s.chain) ∧
      (q.assumed.split q.preparedLabels).Reachable b.label := by
  rw [q.base_eq, Implementation.mem_blocks_prune_iff h.nodup_split,
    Implementation.mem_blocks_split_iff]
  rfl

/-- Every chain comes from a block of the copy. -/
theorem exists_source (h : q.WellFormed) {s : Cut} (hs : s ∈ q.cuts) :
    ∃ c ∈ q.source.blocks, s.Spells { c with commands := q.assumedCommands c } := by
  obtain ⟨b, hb, hsb⟩ := Implementation.spells_of_mem_cuts hs
  obtain ⟨c, hc, rfl⟩ := (Implementation.mem_blocks_withDisjointness _ _ _ h.nodup).mp hb
  exact ⟨c, hc, hsb⟩

theorem exists_cut (h : q.WellFormed) {c : Block} (hc : c ∈ q.source.blocks) :
    ∃ s ∈ q.cuts, s.Spells { c with commands := q.assumedCommands c } :=
  Implementation.exists_mem_cuts
    ((Implementation.mem_blocks_withDisjointness _ _ _ h.nodup).mpr ⟨c, hc, rfl⟩) _

/-- **The chain of a reachable block of the copy is part of the base.** -/
theorem mem_blocks_base_of_mem_chain (h : q.WellFormed) {s : Cut} (hs : s ∈ q.cuts)
    (hr : q.source.Reachable s.block.label) {b : Block} (hb : b ∈ s.chain) :
    b ∈ q.base.blocks := by
  refine h.mem_blocks_base.mpr ⟨⟨s, hs, hb⟩, Implementation.reachable_split hs ?_ hb⟩
  exact (Implementation.reachable_withDisjointness_iff _ _ _).mpr hr

/-- A block of the base belongs to the chain of a reachable block of the copy. -/
theorem reachable_source (h : q.WellFormed) {s : Cut} (hs : s ∈ q.cuts) {b : Block}
    (hbs : b ∈ s.chain) (hb : b ∈ q.base.blocks) : q.source.Reachable s.block.label :=
  (Implementation.reachable_withDisjointness_iff _ _ _).mp
    (Implementation.reachable_of_mem_chain h.closed_assumed hs hbs (h.mem_blocks_base.mp hb).2)

/-! ## Preemption points -/

/-- A preemption point of a reachable block stands at the head of a block of the base. -/
theorem exists_head (h : q.WellFormed) {d : Block} (hd : d ∈ q.source.blocks)
    (hr : q.source.Reachable d.label) {m : Command} (hm : m ∈ d.commands)
    (hp : m.isPreemption = true) : ∃ b ∈ q.base.blocks, ∃ rest, b.commands = m :: rest := by
  obtain ⟨s, hs, hsd⟩ := h.exists_cut hd
  have hmem : m ∈ q.assumedCommands d := by
    refine List.mem_append_right _ (List.mem_flatMap.mpr ⟨m, hm, ?_⟩)
    exact List.mem_cons_self
  obtain ⟨cs, ds, hcs⟩ := List.append_of_mem hmem
  have hseg := Command.getElem?_laterSegments hp cs ds
  rw [← hcs] at hseg
  have hchain : m :: Command.firstSegment ds ∈ s.chain.map Block.commands := by
    rw [hsd.commands]
    exact List.mem_cons_of_mem _ (List.mem_of_getElem? hseg)
  obtain ⟨b, hb, hbc⟩ := List.mem_map.mp hchain
  exact ⟨b, h.mem_blocks_base_of_mem_chain hs (hsd.label ▸ hr) hb, _, hbc⟩

end WellFormed

/-- A preemption point of a chain is one of the block, with the same predicates behind it. -/
theorem exists_preemption_of_chain {c : Block} {s : Cut}
    (hs : s.Spells { c with commands := q.assumedCommands c }) {b : Block} (hb : b ∈ s.chain)
    {m : Command} {rest : List Command} (hbc : b.commands = m :: rest)
    (hm : m.isPreemption = true) :
    ∃ pre rest', c.commands = pre ++ m :: rest' ∧ m :: rest = m :: Command.firstSegment
      ((q.setting.permissions.assumeAfter q.setting.yielding q.scope m).tail ++
        rest'.flatMap (q.setting.permissions.assumeAfter q.setting.yielding q.scope)) := by
  have hp : m.isPredicate = false := by
    cases h : m.isPredicate with
    | true => rw [Command.isPreemption_of_isPredicate h] at hm; cases hm
    | false => rfl
  have hseg : b.commands ∈ Command.segments (q.assumedCommands c) := by
    rw [← hs.commands]
    exact List.mem_map_of_mem hb
  rcases List.mem_cons.mp hseg with hseg | hseg
  · have hmem : m ∈ Command.firstSegment (q.assumedCommands c) := by
      rw [← hseg, hbc]
      exact List.mem_cons_self
    rw [Command.isPreemption_of_mem_firstSegment hmem] at hm
    cases hm
  · obtain ⟨pre, m', tail, hc, -, ht⟩ := Command.of_mem_laterSegments hseg
    rw [hbc] at ht
    obtain ⟨rfl, rfl⟩ := List.cons.inj ht
    obtain ⟨pre', rest', hcc, hr⟩ := Implementation.exists_of_assumedCommands_eq _ _ _ _ hp hc
    refine ⟨pre', rest', hcc, ?_⟩
    rw [Permissions.assumeAfter, List.cons_append, List.cons.injEq] at hr
    rw [hr.2, Permissions.assumeAfter, List.tail_cons]
    rfl

end Sequential

/-! ## A counter

The copy of a procedure that increments a global in one step of its own, for any blocks of its
body.  The block `H` heads a yielding loop, and there is a check for the call `3`. -/

namespace Counter

def x : Variable := { name := "x", type := .int }

def increment : Command := .assign [x.name] [.binary .add x.expr (.int 1)]

def action : AtomicAction :=
  { name := "Add"
    transition := .eq x.expr (.binary .add (.old x.expr) (.int 1))
    layers := ⟨1, 2⟩ }

def setting : Setting :=
  { facts := {
      globals := [x]
      procedures := .ofList [("Main", { kind := .action "Add", upper := 1 })]
      actions := .ofList [("Add", action)]
      loops := .ofList [(⟨"Main", "H"⟩, { layers := [1] })] }
    copies := {
      implementations := .ofList [("Main_1", ⟨"Main", "Main"⟩)]
      blocks := .ofList [(⟨"Main_1", "H"⟩, ⟨"Main", "H"⟩)] }
    refinementBlocks := .ofList [(3, { label := "R", transfer := .goto [] })] }

def copy (blocks : List Block) : Implementation :=
  { name := "Main_1", procedure := "Main_1", blocks }

def program (blocks : List Block) : Program :=
  { globals := [x]
    procedures := .ofList [("Main_1", { name := "Main_1" }), ("Work", { name := "Work" })]
    implementations := .ofList [("Main_1", copy blocks)]
    implementations_keyed := by simp [copy] }

def sequential (blocks : List Block) : Sequential :=
  { setting, layer := 1
    plan := {
      implementation := copy blocks
      procedure := { name := "Main_1" }
      origin := ⟨"Main", "Main"⟩
      yielding := { kind := .action "Add", upper := 1 }
      action? := some action } }

theorem plan_eq {blocks : List Block} (hb : (copy blocks).checkBlocks = .ok ())
    (hc : setting.checkConcurrent 1 (program blocks) (copy blocks) = .ok ()) :
    setting.plan 1 (program blocks) = .ok [(sequential blocks).plan] := by
  have hp : setting.planCopy 1 (program blocks) "Main_1" ⟨"Main", "Main"⟩ =
      .ok (sequential blocks).plan := by
    have h : setting.planCopy 1 (program blocks) "Main_1" ⟨"Main", "Main"⟩ = (do
        (copy blocks).checkBlocks
        setting.checkConcurrent 1 (program blocks) (copy blocks)
        return (sequential blocks).plan) := rfl
    rw [h, hb, hc]
    rfl
  have he : setting.copies.implementations.entries = [("Main_1", ⟨"Main", "Main"⟩)] := rfl
  rw [Setting.plan, he]
  simp only [List.mapM_cons, hp]
  rfl

/-- The layer is accepted if the checks of the body are passed. -/
theorem exists_produces {blocks : List Block} (hb : (copy blocks).checkBlocks = .ok ())
    (hc : setting.checkConcurrent 1 (program blocks) (copy blocks) = .ok ()) :
    ∃ out, (sequential blocks).Produces (program blocks) out
      (sequential blocks).implementation := by
  exact ⟨_, Sequential.Produces.of_plan (plan_eq hb hc) (List.mem_singleton_self _) rfl⟩

/-- A loop with a yield, and a parallel call behind it. -/
def blocks : List Block :=
  [{ label := "A", commands := [increment], transfer := .goto ["H"] },
    { label := "H", transfer := .goto ["B", "E"] },
    { label := "B"
      commands := [.yield 1, .assert (.binary .ge x.expr (.int 0))], transfer := .goto ["H"] },
    { label := "E", commands := [.par { id := 2, calls := [{ id := 3, callee := "Work" }] }] }]

theorem exists_produces_blocks : ∃ out,
    (sequential blocks).Produces (program blocks) out (sequential blocks).implementation := by
  refine exists_produces rfl (Setting.checkConcurrent_of_reducible ?_ rfl)
  cbv

theorem nodup_labels_blocks : (copy blocks).labels.Nodup := by decide

theorem faithful_blocks : setting.copies.Faithful (copy blocks) := by
  intro r hr _
  rw [List.mem_singleton.mp hr]
  decide

end Counter

end LayerCheck
