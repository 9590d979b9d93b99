import LayerCheck.Proofs.Sequential.Base

/-!
# What splitting keeps

Splitting only moves commands.  The start of a block keeps its place and label, the pieces are added
at the end, one for each preemption point, and from the start on every piece jumps to the next.  So
a way that comes to a block runs through the pieces of the block in turn, and with them through the
commands that the block had.

* `Cut.Spells.flatMap_commands`, `Cut.Spells.head_piece`: the commands of a chain.
* `Implementation.commandsAlong_flatMap_chainLabels`: the commands along a way.
* `Implementation.splitting_exact`: what splitting keeps.
-/

namespace LayerCheck

variable {i : Implementation} {others : List String}

namespace Cut.Spells

variable {s : Cut} {b : Block}

theorem block_commands (h : s.Spells b) :
    s.block.commands = Command.firstSegment b.commands ∧
      s.pieces.reverse.map Block.commands = Command.laterSegments b.commands := by
  have hc := h.commands
  rw [Cut.chain, List.map_cons, Command.segments, List.cons.injEq] at hc
  exact hc

/-- The start of a block holds no preemption point. -/
theorem plain_block (h : s.Spells b) : ∀ c ∈ s.block.commands, c.isPreemption = false := by
  intro c hc
  rw [h.block_commands.1] at hc
  exact Command.isPreemption_of_mem_firstSegment hc

/-- Each piece begins with a preemption point and holds no other. -/
theorem head_piece (h : s.Spells b) {p : Block} (hp : p ∈ s.pieces) :
    ∃ c cs, p.commands = c :: cs ∧ c.isPreemption = true ∧ ∀ d ∈ cs, d.isPreemption = false := by
  have hm : p.commands ∈ s.pieces.reverse.map Block.commands :=
    List.mem_map_of_mem (List.mem_reverse.mpr hp)
  rw [h.block_commands.2] at hm
  obtain ⟨-, c, rest, -, hc, hcs⟩ := Command.of_mem_laterSegments hm
  exact ⟨c, _, hcs, hc, fun d hd => Command.isPreemption_of_mem_firstSegment hd⟩

/-- **A chain has the commands of its block.** -/
theorem flatMap_commands (h : s.Spells b) : s.chain.flatMap Block.commands = b.commands := by
  rw [List.flatMap_def, h.commands, Command.flatten_segments]

theorem length_pieces (h : s.Spells b) :
    s.pieces.length = b.commands.countP Command.isPreemption := by
  have hl := Implementation.length_chain h
  rw [Cut.chain, List.length_cons, List.length_reverse] at hl
  omega

end Cut.Spells

namespace Implementation

/-- There are as many pieces as preemption points. -/
theorem length_pieces (i : Implementation) (others : List String) :
    ((i.cuts others).flatMap Cut.pieces).length =
      (i.blocks.flatMap Block.commands).countP Command.isPreemption := by
  have h := forall₂_cuts i others
  generalize i.cuts others = ss, i.blocks = bs at h
  induction h with
  | nil => rfl
  | cons hs _ ih =>
    rw [List.flatMap_cons, List.flatMap_cons, List.length_append, List.countP_append, ih,
      hs.length_pieces]

/-- **Along the chains run the commands of the blocks.** -/
theorem commandsAlong_flatMap_chainLabels (hn : i.labels.Nodup) {π : List String}
    (hπ : ∀ l ∈ π, l ∈ i.labels) :
    (i.split others).commandsAlong (π.flatMap (i.chainLabels others)) = i.commandsAlong π := by
  induction π with
  | nil => rfl
  | cons l π ih =>
    rw [List.forall_mem_cons] at hπ
    obtain ⟨b, hb, rfl⟩ := mem_labels.mp hπ.1
    obtain ⟨s, hs, hsb⟩ := exists_mem_cuts hb others
    have hchain : i.chainLabels others b.label = s.chain.map Block.label := by
      rw [← hsb.label, chainLabels_of_mem hn hs]
    rw [List.flatMap_cons, commandsAlong_append, ih hπ.2, hchain,
      commandsAlong_map_label (nodup_labels_split hn others) (mem_blocks_of_mem_chain hs),
      hsb.flatMap_commands, commandsAlong_cons hn hb]

/-- **The commands along the ways from the entry to a return stay the same.** -/
theorem exists_entryWay_split_iff (hn : i.labels.Nodup) (hf : i.Clear others)
    (cs : List Command) :
    (∃ σ, (i.split others).EntryWay σ ∧ (i.split others).commandsAlong σ = cs) ↔
      ∃ π, i.EntryWay π ∧ i.commandsAlong π = cs := by
  simp only [entryWay_split_iff hn hf]
  constructor
  · rintro ⟨_, ⟨π, hπ, rfl⟩, hcs⟩
    rw [commandsAlong_flatMap_chainLabels hn hπ.way.mem_labels] at hcs
    exact ⟨π, hπ, hcs⟩
  · rintro ⟨π, hπ, rfl⟩
    exact ⟨_, ⟨π, hπ, rfl⟩, commandsAlong_flatMap_chainLabels hn hπ.way.mem_labels⟩

/-- **Splitting loses, doubles and reorders nothing.**  The blocks keep their places and labels and
hold no preemption point any more; the pieces come after them, and each has one at its head and no
other, so there are as many pieces as preemption points.  All labels are distinct, and those of the
pieces neither name a block nor are they reserved.  From each block on, the block and its pieces jump
from one to the next and then go on as the block did, and their commands in turn are those of the
block.  So the ways from the entry to a return that go from chain to chain are those of before, and
the same commands run along them.  There are no other ways unless a jump that named no block names a
piece, and there is no such jump if all of them lead to blocks. -/
theorem splitting_exact (hn : i.labels.Nodup) (others : List String) :
    (i.split others =
        { i with blocks := (i.cuts others).map Cut.block ++ (i.cuts others).flatMap Cut.pieces } ∧
      (i.cuts others).map (·.block.label) = i.labels) ∧
    (∀ s ∈ i.cuts others, (∀ c ∈ s.block.commands, c.isPreemption = false) ∧
      ∀ p ∈ s.pieces, ∃ c cs, p.commands = c :: cs ∧ c.isPreemption = true ∧
        ∀ d ∈ cs, d.isPreemption = false) ∧
    ((i.cuts others).flatMap Cut.pieces).length =
      (i.blocks.flatMap Block.commands).countP Command.isPreemption ∧
    ((i.split others).labels.Nodup ∧
      ∀ p ∈ (i.cuts others).flatMap Cut.pieces, p.label ∉ i.labels ∧ p.label ∉ others) ∧
    List.Forall₂ (fun b s => s.block.label = b.label ∧
        s.chain.flatMap Block.commands = b.commands ∧ Cut.Linked b.transfer s.chain)
      i.blocks (i.cuts others) ∧
    (∀ π : List String, (∀ l ∈ π, l ∈ i.labels) →
      ((i.split others).EntryWay (π.flatMap (i.chainLabels others)) ↔ i.EntryWay π) ∧
      (i.split others).commandsAlong (π.flatMap (i.chainLabels others)) = i.commandsAlong π) ∧
    (i.Closed → i.Clear others) ∧
    (i.Clear others →
      (∀ σ, (i.split others).EntryWay σ ↔
        ∃ π, i.EntryWay π ∧ π.flatMap (i.chainLabels others) = σ) ∧
      ∀ cs, (∃ σ, (i.split others).EntryWay σ ∧ (i.split others).commandsAlong σ = cs) ↔
        ∃ π, i.EntryWay π ∧ i.commandsAlong π = cs) := by
  refine ⟨⟨?_, map_label_cuts i others⟩, fun s hs => ?_, length_pieces i others,
    ⟨nodup_labels_split hn others, fun p hp => ?_⟩,
    (forall₂_cuts i others).imp fun b s h => ⟨h.label, h.flatMap_commands, h.linked⟩,
    fun π hπ => ⟨entryWay_flatMap_chainLabels_iff hn hπ, commandsAlong_flatMap_chainLabels hn hπ⟩,
    Closed.clear, fun hf => ⟨fun σ => entryWay_split_iff hn hf, exists_entryWay_split_iff hn hf⟩⟩
  · rw [← blocks_split]
    rfl
  · obtain ⟨b, -, hsb⟩ := spells_of_mem_cuts hs
    exact ⟨hsb.plain_block, fun p hp => hsb.head_piece hp⟩
  · have hf := (Block.nodup_labels_cuts (i.labels ++ others) i.blocks).2 p hp
    rw [List.mem_append, not_or] at hf
    exact hf

end Implementation

namespace Counter

/-- The yield of the block `B` heads the piece `B_1`, as `B_0` is reserved. -/
theorem splitting_exact_reserved :
    (copy blocks).labels.Nodup ∧ (copy blocks).Clear ["B_0"] ∧
      ((copy blocks).split ["B_0"]).EntryWay ["A", "H", "B", "B_1", "H", "E", "E_0"] ∧
      ∃ π, (copy blocks).EntryWay π ∧ (copy blocks).commandsAlong π =
        ((copy blocks).split ["B_0"]).commandsAlong ["A", "H", "B", "B_1", "H", "E", "E_0"] := by
  have hclosed : (copy blocks).Closed := by
    unfold Implementation.Closed
    decide
  obtain ⟨-, -, -, -, -, hways, hclear, hall⟩ :=
    Implementation.splitting_exact nodup_labels_blocks ["B_0"]
  have hchains : ["A", "H", "B", "H", "E"].flatMap ((copy blocks).chainLabels ["B_0"]) =
      ["A", "H", "B", "B_1", "H", "E", "E_0"] := by cbv
  have hway : (copy blocks).Way ["A", "H", "B", "H", "E"] := by
    refine .step (b := blocks[0]) (List.getElem_mem _) (by decide) ?_
    refine .step (b := blocks[1]) (List.getElem_mem _) (by decide) ?_
    refine .step (b := blocks[2]) (List.getElem_mem _) (by decide) ?_
    refine .step (b := blocks[1]) (List.getElem_mem _) (by decide) ?_
    exact .ret (b := blocks[3]) (List.getElem_mem _) rfl
  have hsplit := (hways ["A", "H", "B", "H", "E"] (by decide)).1.mpr ⟨rfl, hway⟩
  rw [hchains] at hsplit
  exact ⟨nodup_labels_blocks, hclear hclosed, hsplit,
    ((hall (hclear hclosed)).2 _).mp ⟨_, hsplit, rfl⟩⟩

def misledBlock : Block :=
  { label := "A", commands := [.assume (.bool true)], transfer := .goto ["B_0"] }

/-- The first block jumps to a block that is not there. -/
def misled : Implementation := copy [misledBlock, { label := "B", commands := [.yield 1] }]

/-- No way leads through it.  Splitting gives the label of the missing block to the piece at the
yield, and then there is a way. -/
theorem splitting_gains_misled :
    misled.labels.Nodup ∧ ¬ misled.Clear [] ∧ (¬ ∃ π, misled.EntryWay π) ∧
      (misled.split []).EntryWay ["A", "B_0"] ∧
      (misled.split []).commandsAlong ["A", "B_0"] = [.assume (.bool true), .yield 1] := by
  have hn : misled.labels.Nodup := by decide
  have hA : misledBlock ∈ misled.blocks := List.mem_cons_self
  have hB : "B_0" ∉ misled.labels := by decide
  have hnone : ¬ ∃ π, misled.EntryWay π := by
    rintro ⟨π, hstart, hway⟩
    have hlabels := hway.mem_labels
    obtain ⟨ρ, rfl⟩ := List.head?_eq_some_iff.mp (hstart.trans (rfl : _ = some "A"))
    rcases (Implementation.way_cons_iff hn hA).mp hway with ⟨ht, -⟩ | ⟨m, hm, hh, -⟩
    · cases ht
    · obtain rfl := List.mem_singleton.mp hm
      exact hB (hlabels _ (List.mem_cons_of_mem _ (List.mem_of_mem_head? hh)))
  have hsplit : misled.split [] = copy [misledBlock, { label := "B", transfer := .goto ["B_0"] },
      { label := "B_0", commands := [.yield 1] }] := by cbv
  have hclear : ¬ misled.Clear [] := by
    intro h
    refine hB (h misledBlock hA "B_0" (List.mem_singleton_self _) ?_)
    rw [hsplit]
    decide
  refine ⟨hn, hclear, hnone, ?_⟩
  rw [hsplit]
  refine ⟨⟨rfl, .step (b := misledBlock) List.mem_cons_self (List.mem_singleton_self _) ?_⟩, rfl⟩
  exact .ret (b := { label := "B_0", commands := [.yield 1] }) (by simp [copy]) rfl

end Counter

end LayerCheck
