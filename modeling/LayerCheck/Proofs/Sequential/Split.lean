import LayerCheck.Plan
import LayerCheck.Proofs.Expr.Fresh
import LayerCheck.Proofs.Flow.Paths
import LayerCheck.Proofs.Lists
import LayerCheck.Sequential.Split
import Mathlib.Data.List.TakeWhile

/-!
# What splitting does to a block

The commands of a block fall into segments: the plain commands at its start, and every preemption
point with the plain commands after it.  Splitting turns a block into a chain of blocks, one for
each segment, in which each jumps to the next and the last ends as the block did.

* `Command.segments`: the segments of a block, in order.
* `Cut.chain`: the chain that a block has become, from its first block on.
* `Block.spells_cut`: the chain spells the segments of the block.
* `Implementation.nodup_labels_split`: the labels of all chains are distinct.
-/

namespace LayerCheck

namespace Command

/-! ## Segments -/

/-- The commands before the first preemption point. -/
def firstSegment (cs : List Command) : List Command := cs.takeWhile fun c => !c.isPreemption

/-- Every preemption point with the commands before the next one. -/
def laterSegments : List Command → List (List Command)
  | [] => []
  | c :: cs =>
    if c.isPreemption then (c :: firstSegment cs) :: laterSegments cs else laterSegments cs

def segments (cs : List Command) : List (List Command) := firstSegment cs :: laterSegments cs

theorem firstSegment_cons_of_isPreemption {c : Command} (h : c.isPreemption = true)
    (cs : List Command) : firstSegment (c :: cs) = [] := by
  simp [firstSegment, h]

theorem firstSegment_cons_of_not {c : Command} (h : c.isPreemption = false) (cs : List Command) :
    firstSegment (c :: cs) = c :: firstSegment cs := by
  simp [firstSegment, h]

theorem laterSegments_cons_of_isPreemption {c : Command} (h : c.isPreemption = true)
    (cs : List Command) : laterSegments (c :: cs) = (c :: firstSegment cs) :: laterSegments cs := by
  simp [laterSegments, h]

theorem laterSegments_cons_of_not {c : Command} (h : c.isPreemption = false) (cs : List Command) :
    laterSegments (c :: cs) = laterSegments cs := by
  simp [laterSegments, h]

theorem flatten_segments (cs : List Command) : (segments cs).flatten = cs := by
  induction cs with
  | nil => rfl
  | cons c cs ih =>
    cases h : c.isPreemption with
    | true =>
      rw [segments, firstSegment_cons_of_isPreemption h, laterSegments_cons_of_isPreemption h]
      simpa [segments] using ih
    | false =>
      rw [segments, firstSegment_cons_of_not h, laterSegments_cons_of_not h]
      simpa [segments] using ih

theorem isPreemption_of_mem_firstSegment {c : Command} {cs : List Command}
    (h : c ∈ firstSegment cs) : c.isPreemption = false := by
  simpa using List.mem_takeWhile_imp h

/-- Every later segment is a preemption point with the plain commands after it. -/
theorem of_mem_laterSegments {cs seg : List Command} (h : seg ∈ laterSegments cs) :
    ∃ pre m rest, cs = pre ++ m :: rest ∧ m.isPreemption = true ∧ seg = m :: firstSegment rest := by
  induction cs with
  | nil => simp [laterSegments] at h
  | cons c cs ih =>
    cases hc : c.isPreemption with
    | true =>
      rw [laterSegments_cons_of_isPreemption hc, List.mem_cons] at h
      rcases h with rfl | h
      · exact ⟨[], c, cs, rfl, hc, rfl⟩
      · obtain ⟨pre, m, rest, rfl, hm, hs⟩ := ih h
        exact ⟨c :: pre, m, rest, rfl, hm, hs⟩
    | false =>
      rw [laterSegments_cons_of_not hc] at h
      obtain ⟨pre, m, rest, rfl, hm, hs⟩ := ih h
      exact ⟨c :: pre, m, rest, rfl, hm, hs⟩

theorem laterSegments_append (cs ds : List Command) :
    ∃ as, as.length = cs.countP isPreemption ∧
      laterSegments (cs ++ ds) = as ++ laterSegments ds := by
  induction cs with
  | nil => exact ⟨[], rfl, rfl⟩
  | cons c cs ih =>
    obtain ⟨as, hl, ha⟩ := ih
    cases h : c.isPreemption with
    | true =>
      refine ⟨(c :: firstSegment (cs ++ ds)) :: as, ?_, ?_⟩
      · simp [h, hl]
      · rw [List.cons_append, laterSegments_cons_of_isPreemption h, ha, List.cons_append]
    | false =>
      refine ⟨as, ?_, ?_⟩
      · simp [h, hl]
      · rw [List.cons_append, laterSegments_cons_of_not h, ha]

theorem length_laterSegments (cs : List Command) :
    (laterSegments cs).length = cs.countP isPreemption := by
  obtain ⟨as, hl, ha⟩ := laterSegments_append cs []
  rw [List.append_nil] at ha
  rw [ha, laterSegments, List.append_nil, hl]

/-- The segment of a preemption point has the number of the preemption points before it. -/
theorem getElem?_laterSegments {m : Command} (hm : m.isPreemption = true) (cs ds : List Command) :
    (laterSegments (cs ++ m :: ds))[cs.countP isPreemption]? = some (m :: firstSegment ds) := by
  obtain ⟨as, hl, ha⟩ := laterSegments_append cs (m :: ds)
  rw [ha, laterSegments_cons_of_isPreemption hm, ← hl]
  simp

end Command

/-! ## Labels of pieces -/

namespace Cut

theorem pieceLabel_injective (label : String) : Function.Injective (pieceLabel label) := by
  intro m n h
  exact Fresh.toString_injective ((String.append_right_inj (label ++ "_")).mp h)

/-- The label of a piece ends with a digit, a reserved one with a letter. -/
theorem pieceLabel_notMem_reserved (label : String) (n : Nat) :
    pieceLabel label n ∉ Label.reserved := by
  intro h
  have hl : ∀ l ∈ Label.reserved, l.toList.getLast?.all (fun c => !c.isDigit) = true := by
    decide
  have hd : Nat.toDigits 10 n ≠ [] := Nat.toDigits_ne_nil
  have ht : (pieceLabel label n).toList = (label ++ "_").toList ++ Nat.toDigits 10 n := by
    simp [pieceLabel]
  have hlast : (pieceLabel label n).toList.getLast? = some ((Nat.toDigits 10 n).getLast hd) := by
    rw [ht, List.getLast?_append, List.getLast?_eq_some_getLast hd, Option.some_or]
  have := hl _ h
  rw [hlast, Option.all_some,
    Nat.isDigit_of_mem_toDigits (by decide) (by decide) (List.getLast_mem hd)] at this
  exact absurd this (by decide)

/-! ## The chain of a block -/

/-- The blocks that a block has become, from its first commands to its last. -/
def chain (s : Cut) : List Block := s.block :: s.pieces.reverse

/-- Every block jumps to the next one, and the last ends with the transfer. -/
def Linked (t : Transfer) : List Block → Prop
  | [] => True
  | [b] => b.transfer = t
  | b :: c :: bs => b.transfer = .goto [c.label] ∧ Linked t (c :: bs)

/-- The chain of the cut spells the commands of a block. -/
structure Spells (s : Cut) (b : Block) : Prop where
  label : s.block.label = b.label
  commands : s.chain.map Block.commands = Command.segments b.commands
  linked : Linked b.transfer s.chain
  numbered : ∀ p ∈ s.pieces, ∃ n, p.label = pieceLabel b.label n

/-- The pieces of the cut have labels of their own, and these are taken from now on. -/
structure Named (s : Cut) (taken : List String) : Prop where
  used : s.taken = (s.pieces.map Block.label).reverse ++ taken
  nodup : (s.pieces.map Block.label).Nodup
  free : ∀ p ∈ s.pieces, p.label ∉ taken

theorem Linked.withCommands {t : Transfer} {b : Block} {bs : List Block}
    (h : Linked t (b :: bs)) (cs : List Command) : Linked t ({ b with commands := cs } :: bs) := by
  cases bs with
  | nil => exact h
  | cons c bs => exact h

theorem Linked.withLabel {t : Transfer} {b : Block} {bs : List Block}
    (h : Linked t (b :: bs)) (l : String) : Linked t ({ b with label := l } :: bs) := by
  cases bs with
  | nil => exact h
  | cons c bs => exact h

/-- A chain is left from its last block, and goes on inside from the others. -/
theorem Linked.eq_getLast_or {t : Transfer} {b c : Block} {bs : List Block}
    (h : Linked t (b :: bs)) (hc : c ∈ b :: bs) {l : String} (hl : l ∈ c.successors) :
    c = (b :: bs).getLast (List.cons_ne_nil b bs) ∧ l ∈ t.targets ∨ l ∈ bs.map Block.label := by
  induction bs generalizing b with
  | nil =>
    obtain rfl := List.mem_singleton.mp hc
    rw [Block.successors, show c.transfer = t from h] at hl
    exact .inl ⟨rfl, hl⟩
  | cons d bs ih =>
    rcases List.mem_cons.mp hc with rfl | hc
    · rw [Block.successors, h.1] at hl
      exact .inr (List.mem_cons.mpr (.inl (List.mem_singleton.mp hl)))
    · rw [List.getLast_cons (List.cons_ne_nil d bs)]
      exact (ih h.2 hc).imp id fun hm => List.mem_cons_of_mem _ hm

theorem Linked.mem_of_mem_successors {t : Transfer} {bs : List Block} (h : Linked t bs)
    {b : Block} (hb : b ∈ bs) {l : String} (hl : l ∈ b.successors) :
    l ∈ t.targets ∨ l ∈ bs.tail.map Block.label := by
  cases bs with
  | nil => exact absurd hb List.not_mem_nil
  | cons c bs => exact (h.eq_getLast_or hb hl).imp And.right id

theorem push_of_plain (s : Cut) {c : Command} (hc : c.isPreemption = false) :
    s.push c = { s with block := { s.block with commands := c :: s.block.commands } } := by
  simp [push, hc]

theorem Spells.push {s : Cut} {b : Block} (h : s.Spells b) (c : Command) :
    (s.push c).Spells { b with commands := c :: b.commands } := by
  have hm := h.commands
  rw [chain, List.map_cons, Command.segments, List.cons.injEq] at hm
  cases hc : c.isPreemption with
  | true =>
    simp only [Cut.push, hc, if_true]
    generalize Fresh.number (pieceLabel s.block.label) s.next s.taken = n
    refine ⟨h.label, ?_, ?_, ?_⟩
    · rw [chain, List.reverse_append, List.reverse_singleton, List.singleton_append]
      simp only [List.map_cons, Command.segments]
      rw [Command.firstSegment_cons_of_isPreemption hc,
        Command.laterSegments_cons_of_isPreemption hc, hm.1, hm.2]
    · rw [chain, List.reverse_append, List.reverse_singleton, List.singleton_append]
      exact ⟨rfl, (h.linked.withCommands _).withLabel _⟩
    · intro p hp
      rcases List.mem_append.mp hp with hp | hp
      · exact h.numbered p hp
      · rw [List.mem_singleton.mp hp]
        exact ⟨n, by rw [h.label]⟩
  | false =>
    rw [push_of_plain s hc]
    refine ⟨h.label, ?_, h.linked.withCommands _, h.numbered⟩
    rw [chain, List.map_cons, Command.segments, Command.firstSegment_cons_of_not hc,
      Command.laterSegments_cons_of_not hc, hm.1, hm.2]

theorem Named.push {s : Cut} {taken : List String} (h : s.Named taken) (c : Command) :
    (s.push c).Named taken := by
  cases hc : c.isPreemption with
  | true =>
    have hf := Fresh.number_notMem (pieceLabel_injective s.block.label) s.next s.taken
    simp only [Cut.push, hc, if_true]
    generalize Fresh.number (pieceLabel s.block.label) s.next s.taken = n at hf
    rw [h.used, List.mem_append, List.mem_reverse, not_or] at hf
    refine ⟨by simp [h.used], ?_, ?_⟩
    · rw [List.map_append]
      refine List.nodup_append.mpr ⟨h.nodup, by simp, ?_⟩
      intro l hl m hm hx
      subst hx
      rw [List.map_singleton, List.mem_singleton] at hm
      rw [hm] at hl
      exact hf.1 hl
    · intro p hp
      rcases List.mem_append.mp hp with hp | hp
      · exact h.free p hp
      · rw [List.mem_singleton.mp hp]
        exact hf.2
  | false =>
    rw [push_of_plain s hc]
    exact ⟨h.used, h.nodup, h.free⟩

end Cut

namespace Block

/-- **Cutting a block gives a chain that spells its segments.** -/
theorem spells_cut (taken : List String) (b : Block) : (b.cut taken).Spells b := by
  obtain ⟨label, commands, transfer⟩ := b
  show (commands.foldr Cut.push _).Spells _
  induction commands with
  | nil => exact ⟨rfl, rfl, rfl, fun p hp => absurd hp List.not_mem_nil⟩
  | cons c cs ih => exact ih.push c

theorem named_cut (taken : List String) (b : Block) : (b.cut taken).Named taken := by
  rw [cut]
  induction b.commands with
  | nil => exact ⟨rfl, List.nodup_nil, fun p hp => absurd hp List.not_mem_nil⟩
  | cons c cs ih => exact ih.push c

/-! ## All blocks -/

/-- The cuts of all blocks, one after the other. -/
def cuts (taken : List String) : List Block → List Cut
  | [] => []
  | b :: bs => b.cut taken :: cuts (b.cut taken).taken bs

theorem cutAll_eq (taken : List String) (bs : List Block) :
    cutAll taken bs = ((cuts taken bs).map Cut.block, (cuts taken bs).flatMap Cut.pieces) := by
  induction bs generalizing taken with
  | nil => rfl
  | cons b bs ih =>
    rw [cutAll, cuts, ih]
    rfl

theorem forall₂_cuts (taken : List String) (bs : List Block) :
    List.Forall₂ (fun b s => Cut.Spells s b) bs (cuts taken bs) := by
  induction bs generalizing taken with
  | nil => exact .nil
  | cons b bs ih => exact .cons (spells_cut taken b) (ih _)

theorem nodup_labels_cuts (taken : List String) (bs : List Block) :
    (((cuts taken bs).flatMap Cut.pieces).map Block.label).Nodup ∧
      ∀ p ∈ (cuts taken bs).flatMap Cut.pieces, p.label ∉ taken := by
  induction bs generalizing taken with
  | nil => exact ⟨List.nodup_nil, fun p hp => absurd hp List.not_mem_nil⟩
  | cons b bs ih =>
    have hs := named_cut taken b
    obtain ⟨hn, hf⟩ := ih (b.cut taken).taken
    rw [cuts, List.flatMap_cons]
    constructor
    · rw [List.map_append]
      refine List.nodup_append.mpr ⟨hs.nodup, hn, ?_⟩
      intro l hl m hm hx
      subst hx
      obtain ⟨p, hp, rfl⟩ := List.mem_map.mp hm
      refine hf p hp ?_
      rw [hs.used]
      exact List.mem_append_left _ (List.mem_reverse.mpr hl)
    · intro p hp
      rcases List.mem_append.mp hp with hp | hp
      · exact hs.free p hp
      · intro h
        refine hf p hp ?_
        rw [hs.used]
        exact List.mem_append_right _ h

end Block

namespace Implementation

/-- The cuts of the blocks of an implementation. -/
def cuts (i : Implementation) (others : List String) : List Cut :=
  Block.cuts (i.labels ++ others) i.blocks

variable {i : Implementation} {others : List String}

theorem blocks_split (i : Implementation) (others : List String) :
    (i.split others).blocks =
      (i.cuts others).map Cut.block ++ (i.cuts others).flatMap Cut.pieces := by
  show (Block.cutAll _ _).1 ++ (Block.cutAll _ _).2 = _
  rw [Block.cutAll_eq]
  rfl

theorem forall₂_cuts (i : Implementation) (others : List String) :
    List.Forall₂ (fun b s => Cut.Spells s b) i.blocks (i.cuts others) :=
  Block.forall₂_cuts _ _

theorem spells_of_mem_cuts {s : Cut} (hs : s ∈ i.cuts others) :
    ∃ b ∈ i.blocks, s.Spells b := by
  exact (forall₂_cuts i others).exists_of_mem_right hs

theorem map_label_cuts (i : Implementation) (others : List String) :
    (i.cuts others).map (fun s => s.block.label) = i.labels := by
  have h := forall₂_cuts i others
  rw [labels]
  generalize i.cuts others = ss, i.blocks = bs at h
  induction h with
  | nil => rfl
  | cons hs _ ih => rw [List.map_cons, List.map_cons, hs.label, ih]

theorem labels_split (i : Implementation) (others : List String) :
    (i.split others).labels =
      i.labels ++ ((i.cuts others).flatMap Cut.pieces).map Block.label := by
  rw [labels, blocks_split, List.map_append, List.map_map, ← map_label_cuts i others]
  rfl

/-- **Splitting keeps labels distinct.** -/
theorem nodup_labels_split (hn : i.labels.Nodup) (others : List String) :
    (i.split others).labels.Nodup := by
  rw [labels_split]
  obtain ⟨hp, hf⟩ := Block.nodup_labels_cuts (i.labels ++ others) i.blocks
  refine List.nodup_append.mpr ⟨hn, hp, ?_⟩
  intro l hl m hm h
  subst h
  obtain ⟨p, hp, rfl⟩ := List.mem_map.mp hm
  exact hf p hp (List.mem_append_left _ hl)

theorem mem_labels_split {l : String} (hl : l ∈ (i.split others).labels) :
    l ∈ i.labels ∨ l ∉ i.labels ∧ l ∉ others ∧ l ∉ Label.reserved := by
  rw [labels_split, List.mem_append] at hl
  refine hl.imp id fun h => ?_
  obtain ⟨p, hp, rfl⟩ := List.mem_map.mp h
  have hf := (Block.nodup_labels_cuts (i.labels ++ others) i.blocks).2 p hp
  rw [List.mem_append, not_or] at hf
  refine ⟨hf.1, hf.2, ?_⟩
  obtain ⟨s, hs, hps⟩ := List.mem_flatMap.mp hp
  obtain ⟨b, -, hsb⟩ := spells_of_mem_cuts hs
  obtain ⟨n, hpl⟩ := hsb.numbered p hps
  rw [hpl]
  exact Cut.pieceLabel_notMem_reserved b.label n

theorem mem_blocks_split_iff {b : Block} :
    b ∈ (i.split others).blocks ↔ ∃ s ∈ i.cuts others, b ∈ s.chain := by
  simp only [blocks_split, Cut.chain, List.mem_append, List.mem_map, List.mem_flatMap,
    List.mem_cons, List.mem_reverse]
  constructor
  · intro h
    rcases h with ⟨s, hs, rfl⟩ | ⟨s, hs, hb⟩
    · exact ⟨s, hs, .inl rfl⟩
    · exact ⟨s, hs, .inr hb⟩
  · intro h
    rcases h with ⟨s, hs, rfl | hb⟩
    · exact .inl ⟨s, hs, rfl⟩
    · exact .inr ⟨s, hs, hb⟩

theorem closed_split (hc : i.Closed) (others : List String) : (i.split others).Closed := by
  intro b hb t ht
  obtain ⟨s, hs, hbs⟩ := mem_blocks_split_iff.mp hb
  obtain ⟨c, hcb, hsc⟩ := spells_of_mem_cuts hs
  rcases hsc.linked.mem_of_mem_successors hbs ht with h | h
  · rw [labels_split]
    exact List.mem_append_left _ (hc c hcb t h)
  · obtain ⟨d, hd, rfl⟩ := List.mem_map.mp h
    exact mem_labels.mpr ⟨d, mem_blocks_split_iff.mpr ⟨s, hs, List.mem_of_mem_tail hd⟩, rfl⟩

theorem entryLabel?_split (i : Implementation) (others : List String) :
    (i.split others).entryLabel? = i.entryLabel? := by
  cases hb : i.blocks with
  | nil => simp [entryLabel?, labels, blocks_split, cuts, hb, Block.cuts]
  | cons b bs =>
    rw [entryLabel?, entryLabel?, labels_split]
    simp [labels, hb]

end Implementation

end LayerCheck
