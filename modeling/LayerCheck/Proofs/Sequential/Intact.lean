import LayerCheck.Proofs.Flow.Repeated
import LayerCheck.Proofs.Sequential.Repeated
import LayerCheck.Proofs.Sequential.Shape
import Mathlib

/-!
# When the control flow of the body is in order

The checks of a layer look at the labels and jumps of a copy, but not at all of them.  Labels that
blocks of the copy share are not looked for, and neither are the jumps of prepared checks that lead
nowhere.  That is all that is missing: the control flow of the body is in order exactly if no label
that the copy can jump to is shared and the prepared checks that are spliced in jump to blocks of
the body.

* `Sequential.Intact`: what it is to be in order.
* `Implementation.count_split_iff`: splitting makes no label shared.
* `Sequential.closed_implementation`: where the jumps of the body lead.
* `Sequential.Produces.intact_iff`: when the control flow of the body is in order.
-/

namespace LayerCheck

namespace Implementation

variable {i : Implementation} {others : List String} {l : String}

theorem count_labels_split_of_mem (hl : l ∈ i.labels) :
    (i.split others).labels.count l = i.labels.count l := by
  have hp : l ∉ ((i.cuts others).flatMap Cut.pieces).map Block.label := by
    intro hm
    obtain ⟨p, hp, rfl⟩ := List.mem_map.mp hm
    obtain ⟨s, hs, hp⟩ := List.mem_flatMap.mp hp
    exact label_notMem_of_mem_pieces hs hp hl
  rw [labels_split, List.count_append, List.count_eq_zero_of_not_mem hp, Nat.add_zero]

theorem count_labels_split_of_notMem (hl : l ∈ (i.split others).labels) (hn : l ∉ i.labels) :
    (i.split others).labels.count l = 1 := by
  rw [labels_split, List.mem_append] at hl
  rw [labels_split, List.count_append, List.count_eq_zero_of_not_mem hn, Nat.zero_add]
  exact List.count_eq_one_of_mem (Block.nodup_labels_cuts _ _).1 (hl.resolve_left hn)

/-- **Splitting makes no label shared.** -/
theorem count_split_iff (hc : i.Closed) :
    (∀ l, (i.split others).Reachable l → (i.split others).labels.count l = 1) ↔
      ∀ l, i.Reachable l → i.labels.count l = 1 := by
  constructor
  · intro h l hl
    have hm := hl.mem_labels hc
    obtain ⟨s, hs, rfl⟩ := exists_cut_of_mem_labels hm others
    rw [← count_labels_split_of_mem hm]
    exact h _ (reachable_split hs hl List.mem_cons_self)
  · intro h l hl
    by_cases hm : l ∈ i.labels
    · obtain ⟨s, hs, rfl⟩ := exists_cut_of_mem_labels hm others
      rw [count_labels_split_of_mem hm]
      exact h _ (reachable_of_mem_chain hc hs List.mem_cons_self hl)
    · exact count_labels_split_of_notMem (hl.mem_labels (closed_split hc others)) hm

end Implementation

namespace Sequential

variable {q : Sequential} {l e : String}

/-- The control flow of `j` is in order: it begins with a jump to the entry of the copy, labels are
distinct, and jumps lead to blocks. -/
structure Intact (q : Sequential) (j : Implementation) : Prop where
  entry : ∃ b e, j.blocks.head? = some b ∧ b.label = Label.initial ∧
    q.source.entryLabel? = some e ∧ b.transfer = .goto [e]
  nodup : j.labels.Nodup
  closed : j.Closed

/-! ## Labels -/

/-- The prepared checks that are spliced in. -/
abbrev splicedBlocks (q : Sequential) : List Block := q.spliced (preemptions q.opened) q.opened

theorem labels_implementation (q : Sequential) : q.implementation.labels =
    Label.initial :: (q.base.labels ++ q.checkers.map Block.label ++
      q.splicedBlocks.map Block.label) := by
  have hf : (q.opened.map q.finished).map Block.label = q.base.labels := by
    rw [Block.map_label_map q.label_finished, q.labels_opened]
  rw [Implementation.labels, blocks_implementation, List.map_cons, List.map_append,
    List.map_append, hf]
  rfl

theorem mem_labels_of_reserved (hl : l ∈ Label.reserved) : l ∈ q.implementation.labels := by
  rw [labels_implementation, labels_checkers]
  simp only [Label.reserved, List.mem_cons, List.not_mem_nil, or_false] at hl
  rcases hl with rfl | rfl | rfl | rfl | rfl | rfl <;> simp

theorem mem_labels_of_base (hl : l ∈ q.base.labels) : l ∈ q.implementation.labels := by
  rw [labels_implementation]
  simp [hl]

theorem mem_labels_of_spliced (hl : l ∈ q.splicedBlocks.map Block.label) :
    l ∈ q.implementation.labels := by
  rw [labels_implementation]
  exact List.mem_cons_of_mem _ (List.mem_append_right _ hl)

/-- The initial block jumps to the first block of the base, or to the first check if the base has
none. -/
theorem transfer_initialBlock_others (q : Sequential) : (q.initialBlock q.others).transfer =
    .goto [q.base.entryLabel?.getD Label.noninterference] := by
  have hothers : q.others = q.opened.map q.finished ++ q.checkers ++ q.splicedBlocks := rfl
  have hlabels : (q.opened.map q.finished).map Block.label = q.base.labels := by
    rw [Block.map_label_map q.label_finished, q.labels_opened]
  rw [initialBlock, hothers, Implementation.entryLabel?, ← hlabels]
  cases q.opened.map q.finished with
  | nil => rfl
  | cons b bs => rfl

/-! ## Jumps -/

/-- **What a block of the copy jumps to in the end**: what it did, checks of the layer, and prepared
checks. -/
theorem mem_successors_finished {c : Block} (hc : c ∈ q.opened)
    (hl : l ∈ (q.finished c).successors) :
    l ∈ c.successors ∨ l ∈ Label.reserved ∨ l ∈ q.splicedBlocks.map Block.label := by
  have hspliced : ∀ k ∈ (targets (preemptions q.opened) c).flatMap q.components,
      k.block.label ∈ q.splicedBlocks.map Block.label := by
    intro k hk
    obtain ⟨m, hm, hkm⟩ := List.mem_flatMap.mp hk
    have hmet := List.mem_flatMap.mpr ⟨m, List.mem_flatMap.mpr ⟨c, hc, hm⟩, hkm⟩
    obtain ⟨d, -, hdk, hd⟩ := q.prepared_opened.completed_mem hmet
    exact List.mem_map.mpr ⟨_, hd, by rw [label_completed, hdk]⟩
  have hadded : ∀ ls : List String, (∀ l ∈ ls, l ∈ Label.reserved) →
      l ∈ ((c.transfer.addAll (((targets (preemptions q.opened) c).flatMap q.components).map
        (·.block.label))).addAll ls).targets →
      l ∈ c.successors ∨ l ∈ Label.reserved ∨ l ∈ q.splicedBlocks.map Block.label := by
    intro ls hls hl
    rcases Transfer.mem_addAll.mp hl with hl | hl
    · rcases Transfer.mem_addAll.mp hl with hl | hl
      · exact .inl hl
      · obtain ⟨k, hk, rfl⟩ := List.mem_map.mp hl
        exact .inr (.inr (hspliced k hk))
    · exact .inr (.inl (hls l hl))
  rw [Block.successors, transfer_finished, branch] at hl
  split at hl
  · have hall : ∀ l ∈ [Label.returning, Label.unifiedReturn, Label.noninterference],
        l ∈ Label.reserved := by decide
    exact .inr (.inl (hall l hl))
  · simp only [foldl_addSuccessor, checkStep_eq] at hl
    split at hl
    · exact hadded [] (fun _ h => absurd h List.not_mem_nil) hl
    · refine hadded _ (fun l hl => ?_) hl
      rcases List.mem_cons.mp hl with rfl | hl
      · decide
      · rw [List.mem_singleton.mp hl]
        exact stepChecker_mem_reserved _

theorem mem_successors_completed {c : Component} :
    l ∈ (q.completed c).successors ↔
      l ∈ c.block.successors ∨ l = if c.refining then Label.returning else Label.loopRefinement :=
  Transfer.mem_add

/-- **Jumps of the body lead to blocks** if those of the base and of the prepared checks do. -/
theorem closed_implementation (hb : q.base.Closed)
    (hs : ∀ r ∈ (q.setting.preparedBlocks q.source).values, r.label ∈ q.implementation.labels →
      ∀ t ∈ r.successors, t ∈ q.implementation.labels) : q.implementation.Closed := by
  intro b hm t ht
  rw [blocks_implementation] at hm
  rcases List.mem_cons.mp hm with rfl | hm
  · rw [Block.successors, transfer_initialBlock_others, Transfer.targets, List.mem_singleton] at ht
    subst ht
    cases he : q.base.entryLabel? with
    | none => exact mem_labels_of_reserved (by decide)
    | some e => exact mem_labels_of_base (List.mem_of_mem_head? he)
  rcases List.mem_append.mp hm with hm | hm
  · rcases List.mem_append.mp hm with hm | hm
    · obtain ⟨c, hc, rfl⟩ := List.mem_map.mp hm
      rcases mem_successors_finished hc ht with ht | ht | ht
      · obtain ⟨d, hd, n, hdc⟩ := q.forall₂_opened.exists_of_mem_right hc
        obtain ⟨ls, hls, hcd⟩ := hdc.transfer
        rw [Block.successors, hcd] at ht
        rcases Transfer.mem_addAll.mp ht with ht | ht
        · exact mem_labels_of_base (hb d hd t ht)
        · exact mem_labels_of_reserved (hls t ht)
      · exact mem_labels_of_reserved ht
      · exact mem_labels_of_spliced ht
    · rw [Block.successors, transfer_of_mem_checkers hm] at ht
      exact absurd ht List.not_mem_nil
  · obtain ⟨c, hc, rfl⟩ := mem_spliced_iff.mp hm
    have hlabel := mem_labels_of_spliced (List.mem_map_of_mem hm)
    rcases mem_successors_completed.mp ht with ht | rfl
    · exact hs _ (q.prepared_opened.block_mem (List.mem_of_find?_eq_some hc)) hlabel t ht
    · refine mem_labels_of_reserved ?_
      split <;> decide

/-! ## When the control flow is in order -/

/-- Pruning the copy is what may lose its entry or leave labels shared. -/
theorem Labelled.base_iff (h : q.Labelled) (he : q.source.entryLabel? = some e) :
    q.base.labels.Nodup ∧ e ∈ q.base.labels ↔
      ∀ l, q.source.Reachable l → q.source.labels.count l = 1 := by
  have hs : (q.assumed.split q.preparedLabels).entryLabel? = some e := by
    rw [Implementation.entryLabel?_split, q.entryLabel?_assumed, he]
  rw [q.base_eq, Implementation.intact_prune_iff h.closed_split hs,
    Implementation.count_split_iff h.closed_assumed, q.labels_assumed]
  exact forall_congr' fun l =>
    imp_congr_left (Implementation.reachable_withDisjointness_iff _ _ _)

namespace Labelled

variable (h : q.Labelled)

include h

theorem nodup_labels_iff : q.implementation.labels.Nodup ↔ q.base.labels.Nodup := by
  rw [labels_implementation]
  constructor
  · exact fun hn => (List.nodup_append.mp (List.nodup_append.mp (List.nodup_cons.mp hn).2).1).1
  · exact fun hn => h.nodup_added hn (q.prepared_opened.nodup_labels_spliced h.prepared_nodup)
      fun _ => q.prepared_opened.mem_labels_spliced

/-- The body begins at the entry of the copy exactly if the base does. -/
theorem entry_iff (he : q.source.entryLabel? = some e) :
    (∃ b e, q.implementation.blocks.head? = some b ∧ b.label = Label.initial ∧
        q.source.entryLabel? = some e ∧ b.transfer = .goto [e]) ↔
      q.base.entryLabel? = some e := by
  have hres : e ≠ Label.noninterference := by
    rintro rfl
    exact h.unreserved _ (List.mem_of_mem_head? he) (by decide)
  constructor
  · rintro ⟨b, e', hb, -, he', ht⟩
    obtain rfl : e = e' := Option.some_inj.mp (he.symm.trans he')
    rw [blocks_implementation, List.head?_cons, Option.some_inj] at hb
    rw [← hb, transfer_initialBlock_others, Transfer.goto.injEq, List.cons.injEq] at ht
    cases hq : q.base.entryLabel? with
    | none =>
      rw [hq] at ht
      exact absurd ht.1.symm hres
    | some d =>
      rw [hq] at ht
      rw [show d = e from ht.1]
  · intro hq
    refine ⟨q.initialBlock q.others, e, rfl, rfl, he, ?_⟩
    rw [transfer_initialBlock_others, hq]
    rfl

/-- A prepared check whose label is one of the body is spliced in. -/
theorem exists_completed {r : Block} (hr : r ∈ (q.setting.preparedBlocks q.source).values)
    (hl : r.label ∈ q.implementation.labels) :
    ∃ c : Component, c.block = r ∧ q.completed c ∈ q.implementation.blocks := by
  have hprep : r.label ∈ q.preparedLabels := List.mem_map_of_mem hr
  have hspliced : r.label ∈ q.splicedBlocks.map Block.label := by
    have hres := (h.prepared _ hprep).1
    rw [labels_implementation, List.mem_cons, List.mem_append, List.mem_append] at hl
    rcases hl with hl | (hl | hl) | hl
    · exact absurd (hl ▸ by decide) hres
    · exact absurd hprep (h.of_mem_labels_base hl).2
    · have hall : ∀ l ∈ q.checkers.map Block.label, l ∈ Label.reserved := by
        rw [labels_checkers]
        decide
      exact absurd (hall _ hl) hres
    · exact hl
  obtain ⟨b, hb, hbl⟩ := List.mem_map.mp hspliced
  obtain ⟨c, hc, rfl⟩ := mem_spliced_iff.mp hb
  have hcm := q.prepared_opened.block_mem (List.mem_of_find?_eq_some hc)
  refine ⟨c, List.inj_on_of_nodup_map h.prepared_nodup hcm hr hbl, ?_⟩
  rw [blocks_implementation]
  exact List.mem_cons_of_mem _ (List.mem_append_right _ hb)

/-- **The control flow of the body is in order** exactly if no label that the copy can jump to is
shared, and the prepared checks that are spliced in jump to blocks of the body. -/
theorem intact_implementation_iff : q.Intact q.implementation ↔
    (∀ l, q.source.Reachable l → q.source.labels.count l = 1) ∧
      ∀ r ∈ (q.setting.preparedBlocks q.source).values, r.label ∈ q.implementation.labels →
        ∀ t ∈ r.successors, t ∈ q.implementation.labels := by
  obtain ⟨e, he⟩ : ∃ e, q.source.entryLabel? = some e := by
    cases hb : q.source.blocks with
    | nil => exact absurd hb h.nonempty
    | cons b bs =>
      refine ⟨b.label, ?_⟩
      rw [Implementation.entryLabel?, Implementation.labels, hb, List.map_cons, List.head?_cons]
  constructor
  · intro hi
    have hentry := (h.entry_iff he).mp hi.entry
    refine ⟨(h.base_iff he).mp ⟨h.nodup_labels_iff.mp hi.nodup, List.mem_of_mem_head? hentry⟩, ?_⟩
    intro r hr hl t ht
    obtain ⟨c, rfl, hc⟩ := h.exists_completed hr hl
    exact hi.closed _ hc t (mem_successors_completed.mpr (.inl ht))
  · rintro ⟨hone, hs⟩
    obtain ⟨hn, hm⟩ := (h.base_iff he).mpr hone
    have hsplit : ∀ l, (q.assumed.split q.preparedLabels).Reachable l →
        (q.assumed.split q.preparedLabels).labels.count l = 1 := by
      refine (Implementation.count_split_iff h.closed_assumed).mpr fun l hl => ?_
      rw [q.labels_assumed]
      exact hone l ((Implementation.reachable_withDisjointness_iff _ _ _).mp hl)
    have hbase : q.base.Closed := by
      rw [q.base_eq]
      exact Implementation.closed_prune_of_count h.closed_split hsplit
    constructor
    case entry =>
      refine (h.entry_iff he).mpr ?_
      rw [q.base_eq] at hm ⊢
      refine Implementation.entryLabel?_prune_of_reachable ?_
        (Implementation.mem_labels_prune.mp hm).2
      rw [Implementation.entryLabel?_split, q.entryLabel?_assumed, he]
    case nodup => exact h.nodup_labels_iff.mpr hn
    case closed => exact closed_implementation hbase hs

end Labelled

/-- **What acceptance misses of the control flow.**  The body of a copy of an accepted layer is in
order exactly if no label that the copy can jump to is shared, and the prepared checks that are
spliced in jump to blocks of the body. -/
theorem Produces.intact_iff {p : Program} {out : Program × LayerOutput} {j : Implementation}
    (h : q.Produces p out j) : q.Intact j ↔
      (∀ l, q.source.Reachable l → q.source.labels.count l = 1) ∧
        ∀ r ∈ (q.setting.preparedBlocks q.source).values, r.label ∈ j.labels →
          ∀ t ∈ r.successors, t ∈ j.labels := by
  rw [h.eq_implementation]
  exact h.labelled.intact_implementation_iff

end Sequential

/-! ## A prepared check that leads nowhere -/

namespace Astray

/-- A parallel call has a prepared check with a jump to no block. -/
def setting : Setting :=
  { facts := { procedures := .ofList [("M", { kind := .mover .non, upper := 2 })] }
    copies := {
      implementations := .ofList [("M_1", ⟨"M", "M"⟩)]
      blocks := .ofList [(⟨"M_1", "A"⟩, ⟨"M", "A"⟩)] }
    yielding := ["M"]
    refinementBlocks := .ofList [(2, { label := "R", transfer := .goto ["nowhere"] })]
    options := { trustNoninterference := true } }

def work : Command := .par { id := 1, calls := [{ id := 2, callee := "Work" }] }

def copy : Implementation :=
  { name := "M_1", procedure := "M_1"
    blocks := [{ label := "A", commands := [work] }] }

def program : Program :=
  { procedures := .ofList [("M_1", { name := "M_1" }), ("Work", { name := "Work" })]
    implementations := .ofList [("M_1", copy)] }

def sequential : Sequential :=
  { setting, layer := 1
    plan := {
      implementation := copy
      procedure := { name := "M_1" }
      origin := ⟨"M", "M"⟩
      yielding := { kind := .mover .non, upper := 2 }
      action? := none } }

theorem plan_eq : setting.plan 1 program = .ok [sequential.plan] := by
  refine Setting.plan_singleton rfl rfl (Setting.checkConcurrent_of_reducible ?_ rfl) rfl
  cbv

theorem exists_produces : ∃ out,
    sequential.Produces program out sequential.implementation := by
  exact ⟨_, Sequential.Produces.of_plan plan_eq (List.mem_singleton_self _) rfl⟩

theorem blocks_base : sequential.base.blocks =
    [{ label := "A", transfer := .goto ["A_0"] }, { label := "A_0", commands := [work] }] := by
  unfold Sequential.base
  cbv

theorem opened_eq : sequential.opened = sequential.base.blocks := by
  have hh : sequential.headers = [] := by
    rw [Sequential.headers, Implementation.labels, blocks_base]
    rfl
  rw [Sequential.opened, hh]
  rfl

theorem labels_eq : sequential.implementation.labels =
    [Label.initial, "A", "A_0", Label.noninterference, Label.refinement, Label.loopRefinement,
      Label.returning, Label.unifiedReturn, "R"] := by
  rw [Sequential.labels_implementation, Sequential.splicedBlocks, opened_eq,
    Implementation.labels, blocks_base]
  rfl

end Astray

namespace Sequential

/-- All labels are distinct and all jumps of the copy lead to blocks, yet the body has a jump to no
block. -/
theorem Produces.not_intact_astray : ∃ out,
    Astray.sequential.Produces Astray.program out Astray.sequential.implementation ∧
      Astray.copy.labels.Nodup ∧ ¬ Astray.sequential.Intact Astray.sequential.implementation := by
  obtain ⟨out, h⟩ := Astray.exists_produces
  refine ⟨out, h, by decide, fun hi => ?_⟩
  have hs := (h.intact_iff.mp hi).2
  rw [Astray.labels_eq] at hs
  have hmem : ({ label := "R", transfer := .goto ["nowhere"] } : Block) ∈
      (Astray.setting.preparedBlocks Astray.copy).values := List.mem_singleton.mpr rfl
  exact absurd (hs _ hmem (by decide) "nowhere" (List.mem_singleton.mpr rfl)) (by decide)

end Sequential

end LayerCheck
