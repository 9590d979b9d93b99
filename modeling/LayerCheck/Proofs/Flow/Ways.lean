import LayerCheck.Proofs.Flow.Paths

/-!
# Ways from the entry to a return

A way is the list of the labels that an execution which returns passes through.  What runs along it
is the list of the commands of its blocks.

* `Implementation.Way`, `Implementation.EntryWay`: the ways of an implementation.
* `Implementation.without`: the implementation less some blocks and all jumps to them.
* `Implementation.entryWay_prune_iff`: pruning changes no way from the entry.
-/

namespace LayerCheck

/-- Leaves out the jumps to the labels. -/
def Transfer.without (t : Transfer) (ls : List String) : Transfer :=
  match t with
  | .ret => .ret
  | .goto ts => .goto (ts.filter (· ∉ ls))

namespace Implementation

/-- From the first label on, jumps lead along the list to a block that returns. -/
inductive Way (i : Implementation) : List String → Prop
  | ret {b : Block} (hb : b ∈ i.blocks) (ht : b.transfer = .ret) : Way i [b.label]
  | step {b : Block} {m : String} {ms : List String} (hb : b ∈ i.blocks) (hm : m ∈ b.successors)
    (h : Way i (m :: ms)) : Way i (b.label :: m :: ms)

/-- A way from the entry to a return. -/
structure EntryWay (i : Implementation) (π : List String) : Prop where
  start : π.head? = i.entryLabel?
  way : i.Way π

/-- What may come after a block that ends with the transfer: nothing after a return, a way from one
of the targets after a jump. -/
def Follows (i : Implementation) (t : Transfer) (π : List String) : Prop :=
  t = .ret ∧ π = [] ∨ ∃ m ∈ t.targets, π.head? = some m ∧ i.Way π

/-- The commands that run along a list of labels. -/
def commandsAlong (i : Implementation) (π : List String) : List Command :=
  π.flatMap fun l => ((i.block? l).map Block.commands).getD []

/-- Leaves out the blocks with the labels and the jumps to them. -/
def without (i : Implementation) (ls : List String) : Implementation :=
  { i with
    blocks := (i.blocks.filter (·.label ∉ ls)).map fun b =>
      { b with transfer := b.transfer.without ls } }

variable {i j : Implementation} {π : List String}

theorem Way.ne_nil (h : i.Way π) : π ≠ [] := by
  cases h <;> simp

theorem Follows.way {t : Transfer} {b : Block} (h : i.Follows t π) (hb : b ∈ i.blocks)
    (ht : b.transfer = t) : i.Way (b.label :: π) := by
  rcases h with ⟨rfl, rfl⟩ | ⟨m, hm, hh, hw⟩
  · exact .ret hb ht
  · cases hw with
    | ret hc hct =>
      rw [List.head?_cons, Option.some_inj] at hh
      exact .step hb (by rw [Block.successors, ht, hh]; exact hm) (.ret hc hct)
    | step hc hmc hw =>
      rw [List.head?_cons, Option.some_inj] at hh
      exact .step hb (by rw [Block.successors, ht, hh]; exact hm) (.step hc hmc hw)

theorem way_cons_iff (hn : i.labels.Nodup) {b : Block} (hb : b ∈ i.blocks) :
    i.Way (b.label :: π) ↔ i.Follows b.transfer π := by
  constructor
  · intro h
    generalize hl : b.label :: π = ρ at h
    cases h with
    | ret hc hct =>
      obtain ⟨hbc, rfl⟩ := List.cons.inj hl
      rw [eq_of_label_eq hn hb hc hbc]
      exact .inl ⟨hct, rfl⟩
    | step hc hm hw =>
      obtain ⟨hbc, rfl⟩ := List.cons.inj hl
      rw [eq_of_label_eq hn hb hc hbc]
      exact .inr ⟨_, hm, rfl, hw⟩
  · exact fun h => h.way hb rfl

theorem Way.mem_labels (h : i.Way π) : ∀ l ∈ π, l ∈ i.labels := by
  induction h with
  | ret hb ht =>
    intro l hl
    rw [List.mem_singleton.mp hl]
    exact List.mem_map_of_mem hb
  | step hb hm h ih =>
    intro l hl
    rcases List.mem_cons.mp hl with rfl | hl
    · exact List.mem_map_of_mem hb
    · exact ih l hl

/-- Ways only depend on the labels of blocks and how they end. -/
theorem Way.mono (h : i.Way π)
    (hij : ∀ b ∈ i.blocks, ∃ c ∈ j.blocks, c.label = b.label ∧ c.transfer = b.transfer) :
    j.Way π := by
  induction h with
  | ret hb ht =>
    obtain ⟨c, hc, hl, hct⟩ := hij _ hb
    rw [← hl]
    exact .ret hc (hct.trans ht)
  | step hb hm h ih =>
    obtain ⟨c, hc, hl, hct⟩ := hij _ hb
    rw [← hl]
    refine .step hc ?_ ih
    rw [Block.successors, hct]
    exact hm

theorem Way.reachable (h : i.Way π) (hr : ∀ l ∈ π.head?, i.Reachable l) :
    ∀ l ∈ π, i.Reachable l := by
  induction h with
  | ret hb ht =>
    intro l hl
    rw [List.mem_singleton.mp hl]
    exact hr _ rfl
  | step hb hm h ih =>
    intro l hl
    have hb' := hr _ rfl
    rcases List.mem_cons.mp hl with rfl | hl
    · exact hb'
    · refine ih ?_ l hl
      intro m' hm'
      rw [List.head?_cons, Option.mem_some_iff] at hm'
      rw [← hm']
      exact hb'.edge ⟨_, hb, rfl, hm⟩

theorem EntryWay.reachable (h : i.EntryWay π) : ∀ l ∈ π, i.Reachable l := by
  refine h.way.reachable ?_
  intro l hl
  exact ⟨l, h.start.symm.trans hl, .refl⟩

theorem Way.prune (hn : i.labels.Nodup) (h : i.Way π)
    (hr : ∀ l ∈ π, i.Reachable l) : i.prune.Way π := by
  induction h with
  | ret hb ht =>
    exact .ret ((mem_blocks_prune_iff hn).mpr ⟨hb, hr _ (List.mem_singleton.mpr rfl)⟩) ht
  | step hb hm h ih =>
    refine .step ((mem_blocks_prune_iff hn).mpr ⟨hb, hr _ List.mem_cons_self⟩) hm ?_
    exact ih fun l hl => hr l (List.mem_cons_of_mem _ hl)

/-- **Pruning changes no way from the entry to a return.** -/
theorem entryWay_prune_iff (hn : i.labels.Nodup) : i.prune.EntryWay π ↔ i.EntryWay π := by
  constructor
  · intro h
    refine ⟨h.start.trans (entryLabel?_prune hn), h.way.mono fun b hb => ?_⟩
    exact ⟨b, ((mem_blocks_prune_iff hn).mp hb).1, rfl, rfl⟩
  · intro h
    exact ⟨h.start.trans (entryLabel?_prune hn).symm, h.way.prune hn h.reachable⟩

theorem commandsAlong_append (i : Implementation) (π ρ : List String) :
    i.commandsAlong (π ++ ρ) = i.commandsAlong π ++ i.commandsAlong ρ :=
  List.flatMap_append

theorem commandsAlong_cons (hn : i.labels.Nodup) {b : Block} (hb : b ∈ i.blocks) (π : List String) :
    i.commandsAlong (b.label :: π) = b.commands ++ i.commandsAlong π := by
  rw [commandsAlong, List.flatMap_cons, (block?_eq_some_iff hn).mpr ⟨hb, rfl⟩]
  rfl

theorem commandsAlong_map_label (hn : i.labels.Nodup) {bs : List Block}
    (hb : ∀ b ∈ bs, b ∈ i.blocks) :
    i.commandsAlong (bs.map Block.label) = bs.flatMap Block.commands := by
  induction bs with
  | nil => rfl
  | cons b bs ih =>
    rw [List.forall_mem_cons] at hb
    rw [List.map_cons, List.flatMap_cons, commandsAlong_cons hn hb.1, ih hb.2]

end Implementation

end LayerCheck
