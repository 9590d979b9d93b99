import LayerCheck.Proofs.Flow.Ways
import LayerCheck.Proofs.Sequential.Split

/-!
# Ways through a split implementation

A way that enters the chain of a block follows it to the end.  So the ways through the split blocks
are the ways through the blocks, with each label replaced by the labels of its chain.

* `Implementation.way_flatMap_chainLabels_iff`, `Implementation.entryWay_split_iff`: the ways.
* `Implementation.reachable_split`, `Implementation.reachable_of_mem_chain`: a chain is reachable if
  its block was.
* `Implementation.length_prune_split`: how many blocks splitting gives.
-/

namespace LayerCheck

namespace Cut

variable {j : Implementation} {t : Transfer}

theorem Linked.way {b : Block} {bs : List Block} (h : Linked t (b :: bs))
    (hj : ∀ c ∈ b :: bs, c ∈ j.blocks) {σ : List String} (hσ : j.Follows t σ) :
    j.Way ((b :: bs).map Block.label ++ σ) := by
  induction bs generalizing b with
  | nil => exact hσ.way (hj b List.mem_cons_self) h
  | cons c bs ih =>
    have hc := ih h.2 fun d hd => hj d (List.mem_cons_of_mem _ hd)
    refine Implementation.Follows.way (t := .goto [c.label]) (.inr ⟨c.label, ?_, rfl, hc⟩)
      (hj b List.mem_cons_self) h.1
    exact List.mem_singleton.mpr rfl

/-- A way from the first block of a chain runs through all of it. -/
theorem Linked.of_way (hn : j.labels.Nodup) {b : Block} {bs : List Block} (h : Linked t (b :: bs))
    (hj : ∀ c ∈ b :: bs, c ∈ j.blocks) {ρ : List String} (hw : j.Way (b.label :: ρ)) :
    ∃ σ, b.label :: ρ = (b :: bs).map Block.label ++ σ ∧ j.Follows t σ := by
  induction bs generalizing b ρ with
  | nil =>
    refine ⟨ρ, rfl, ?_⟩
    rw [← show b.transfer = t from h]
    exact (Implementation.way_cons_iff hn (hj b List.mem_cons_self)).mp hw
  | cons c bs ih =>
    have hf := (Implementation.way_cons_iff hn (hj b List.mem_cons_self)).mp hw
    rw [h.1] at hf
    rcases hf with ⟨hr, -⟩ | ⟨m, hm, hh, hw'⟩
    · exact absurd hr (by simp)
    · rw [List.mem_singleton.mp hm] at hh
      obtain ⟨ρ', rfl⟩ : ∃ ρ', ρ = c.label :: ρ' := List.head?_eq_some_iff.mp hh
      obtain ⟨σ, he, hσ⟩ := ih h.2 (fun d hd => hj d (List.mem_cons_of_mem _ hd)) hw'
      exact ⟨σ, by rw [he]; rfl, hσ⟩

/-- A chain leads from its first block to each of the others, and nowhere else on the way. -/
theorem Linked.path {b : Block} {bs : List Block} (h : Linked t (b :: bs))
    (hj : ∀ c ∈ b :: bs, c ∈ j.blocks) {c : Block} (hc : c ∈ b :: bs) :
    Relation.ReflTransGen (fun u v => j.Edge u v ∧ v ∈ bs.map Block.label) b.label c.label := by
  induction bs generalizing b with
  | nil =>
    rw [List.mem_singleton.mp hc]
  | cons d bs ih =>
    rcases List.mem_cons.mp hc with rfl | hc
    · exact .refl
    · have hrest := ih h.2 (fun d hd => hj d (List.mem_cons_of_mem _ hd)) hc
      refine .head ⟨⟨b, hj b List.mem_cons_self, rfl, ?_⟩, List.mem_cons_self⟩
        (Relation.ReflTransGen.mono (fun _ _ he => ⟨he.1, List.mem_cons_of_mem _ he.2⟩) _ _ hrest)
      rw [Block.successors, h.1]
      exact List.mem_singleton.mpr rfl

theorem Linked.reaches {b : Block} {bs : List Block} (h : Linked t (b :: bs))
    (hj : ∀ c ∈ b :: bs, c ∈ j.blocks) {c : Block} (hc : c ∈ b :: bs) :
    Relation.ReflTransGen j.Edge b.label c.label :=
  Relation.ReflTransGen.mono (fun _ _ he => he.1) _ _ (h.path hj hc)

/-- Only the end of a chain returns, and only if the block did. -/
theorem Linked.eq_of_ret {bs : List Block} (h : Linked t bs) {b : Block} (hb : b ∈ bs)
    (ht : b.transfer = .ret) : t = .ret := by
  induction bs with
  | nil => exact absurd hb List.not_mem_nil
  | cons c bs ih =>
    cases bs with
    | nil =>
      rw [← show c.transfer = t from h, ← List.mem_singleton.mp hb]
      exact ht
    | cons d bs =>
      rcases List.mem_cons.mp hb with rfl | hb
      · exact absurd (h.1.symm.trans ht) (by simp)
      · exact ih h.2 hb

theorem Linked.transfer_getLast {b : Block} {bs : List Block} (h : Linked t (b :: bs)) :
    ((b :: bs).getLast (List.cons_ne_nil b bs)).transfer = t := by
  induction bs generalizing b with
  | nil => exact h
  | cons d bs ih =>
    rw [List.getLast_cons (List.cons_ne_nil d bs)]
    exact ih h.2

theorem Linked.exists_last {b : Block} {bs : List Block} (h : Linked t (b :: bs)) :
    ∃ c ∈ b :: bs, c.transfer = t :=
  ⟨_, List.getLast_mem _, h.transfer_getLast⟩

end Cut

namespace Implementation

/-- The labels of the chain that the block with the label has become. -/
def chainLabels (i : Implementation) (others : List String) (l : String) : List String :=
  (((i.cuts others).find? (·.block.label == l)).map fun s => s.chain.map Block.label).getD []

variable {i : Implementation} {others : List String}

theorem mem_blocks_of_mem_chain {s : Cut} (hs : s ∈ i.cuts others) :
    ∀ c ∈ s.chain, c ∈ (i.split others).blocks :=
  fun _ hc => mem_blocks_split_iff.mpr ⟨s, hs, hc⟩

theorem exists_mem_cuts {b : Block} (hb : b ∈ i.blocks) (others : List String) :
    ∃ s ∈ i.cuts others, s.Spells b :=
  (forall₂_cuts i others).exists_of_mem_left hb

theorem chainLabels_of_mem (hn : i.labels.Nodup) {s : Cut} (hs : s ∈ i.cuts others) :
    i.chainLabels others s.block.label = s.chain.map Block.label := by
  have hf : (i.cuts others).find? (·.block.label == s.block.label) = some s := by
    have hsome : ((i.cuts others).find? (·.block.label == s.block.label)).isSome :=
      List.find?_isSome.mpr ⟨s, hs, by simp⟩
    obtain ⟨s', hs'⟩ := Option.isSome_iff_exists.mp hsome
    have hl : s'.block.label = s.block.label := by simpa using List.find?_some hs'
    have hm := map_label_cuts i others ▸ hn
    rw [hs', List.inj_on_of_nodup_map hm (List.mem_of_find?_eq_some hs') hs hl]
  rw [chainLabels, hf]
  rfl

theorem exists_cut_of_mem_labels {l : String} (hl : l ∈ i.labels) (others : List String) :
    ∃ s ∈ i.cuts others, s.block.label = l := by
  rw [← map_label_cuts i others] at hl
  exact List.mem_map.mp hl

theorem mem_labels_of_mem_cuts {s : Cut} (hs : s ∈ i.cuts others) : s.block.label ∈ i.labels := by
  rw [← map_label_cuts i others]
  exact List.mem_map_of_mem hs

/-- The pieces have new labels. -/
theorem label_notMem_of_mem_pieces {s : Cut} (hs : s ∈ i.cuts others) {p : Block}
    (hp : p ∈ s.pieces) : p.label ∉ i.labels := fun hl =>
  (Block.nodup_labels_cuts (i.labels ++ others) i.blocks).2 p (List.mem_flatMap.mpr ⟨s, hs, hp⟩)
    (List.mem_append_left _ hl)

/-- Of the labels of a chain only the first is one of the original labels. -/
theorem filter_chainLabels (hn : i.labels.Nodup) {l : String} (hl : l ∈ i.labels) :
    (i.chainLabels others l).filter (· ∈ i.labels) = [l] := by
  obtain ⟨s, hs, rfl⟩ := exists_cut_of_mem_labels hl others
  rw [chainLabels_of_mem hn hs, Cut.chain, List.map_cons, List.filter_cons, if_pos (by simpa)]
  congr 1
  rw [List.filter_eq_nil_iff]
  intro m hm
  obtain ⟨p, hp, rfl⟩ := List.mem_map.mp hm
  simpa using label_notMem_of_mem_pieces hs (List.mem_reverse.mp hp)

theorem filter_flatMap_chainLabels (hn : i.labels.Nodup) {π : List String}
    (hπ : ∀ l ∈ π, l ∈ i.labels) :
    (π.flatMap (i.chainLabels others)).filter (· ∈ i.labels) = π := by
  induction π with
  | nil => rfl
  | cons l π ih =>
    rw [List.flatMap_cons, List.filter_append, filter_chainLabels hn (hπ l List.mem_cons_self),
      ih fun m hm => hπ m (List.mem_cons_of_mem _ hm)]
    rfl

theorem head?_flatMap_chainLabels (hn : i.labels.Nodup) {l : String} (hl : l ∈ i.labels)
    (π : List String) : ((l :: π).flatMap (i.chainLabels others)).head? = some l := by
  obtain ⟨s, hs, rfl⟩ := exists_cut_of_mem_labels hl others
  rw [List.flatMap_cons, chainLabels_of_mem hn hs]
  rfl

/-- What comes after the chain of a block is what may come after the block. -/
theorem exists_follows_of_way (hn : i.labels.Nodup) {b : Block} (hb : b ∈ i.blocks)
    {ρ : List String} (h : (i.split others).Way (b.label :: ρ)) :
    ∃ τ, b.label :: ρ = i.chainLabels others b.label ++ τ ∧
      (i.split others).Follows b.transfer τ := by
  obtain ⟨s, hs, hsb⟩ := exists_mem_cuts hb others
  rw [← hsb.label] at h ⊢
  rw [chainLabels_of_mem hn hs]
  exact hsb.linked.of_way (nodup_labels_split hn others) (mem_blocks_of_mem_chain hs) h

/-- **The ways of an implementation are those of the split implementation that go from chain to
chain.** -/
theorem way_flatMap_chainLabels_iff (hn : i.labels.Nodup) {π : List String}
    (hπ : ∀ l ∈ π, l ∈ i.labels) :
    (i.split others).Way (π.flatMap (i.chainLabels others)) ↔ i.Way π := by
  induction π with
  | nil => exact iff_of_false (fun h => h.ne_nil rfl) fun h => h.ne_nil rfl
  | cons l π ih =>
    rw [List.forall_mem_cons] at hπ
    obtain ⟨b, hb, rfl⟩ := mem_labels.mp hπ.1
    obtain ⟨s, hs, hsb⟩ := exists_mem_cuts hb others
    have hchain : i.chainLabels others b.label = b.label :: s.pieces.reverse.map Block.label := by
      rw [← hsb.label, chainLabels_of_mem hn hs]
      rfl
    obtain ⟨ρ, hρ⟩ : ∃ ρ, i.chainLabels others b.label ++ π.flatMap (i.chainLabels others) =
        b.label :: ρ := ⟨_, by rw [hchain, List.cons_append]⟩
    have hhead : ∀ {m}, (π.flatMap (i.chainLabels others)).head? = some m ↔ π.head? = some m := by
      cases π with
      | nil => exact Iff.rfl
      | cons k π => rw [head?_flatMap_chainLabels hn (hπ.2 k List.mem_cons_self) π, List.head?_cons]
    have hnil : π.flatMap (i.chainLabels others) = [] ↔ π = [] := by
      rw [← List.head?_eq_none_iff, ← List.head?_eq_none_iff, Option.eq_none_iff_forall_ne_some,
        Option.eq_none_iff_forall_ne_some]
      simp only [ne_eq, hhead]
    -- both go on as the transfer of the block says
    have hfollows : (i.split others).Follows b.transfer (π.flatMap (i.chainLabels others)) ↔
        i.Follows b.transfer π := by
      simp only [Follows, hnil, hhead, ih hπ.2]
    rw [List.flatMap_cons, way_cons_iff hn hb, ← hfollows]
    constructor
    · intro h
      rw [hρ] at h
      obtain ⟨τ, he, hτ⟩ := exists_follows_of_way hn hb h
      rw [← hρ] at he
      rw [List.append_cancel_left he]
      exact hτ
    · intro h
      rw [← hsb.label, chainLabels_of_mem hn hs]
      exact hsb.linked.way (mem_blocks_of_mem_chain hs) h

/-- Jumps that name no block name no piece either. -/
def Clear (i : Implementation) (others : List String) : Prop :=
  ∀ b ∈ i.blocks, ∀ t ∈ b.successors, t ∈ (i.split others).labels → t ∈ i.labels

theorem Closed.clear (hc : i.Closed) : i.Clear others := fun b hb t ht _ => hc b hb t ht

/-- A way of the split implementation that starts at an original label is made of chains. -/
theorem exists_chains_of_way (hn : i.labels.Nodup) (hf : i.Clear others) {σ : List String}
    {l : String} (hl : l ∈ i.labels) (hh : σ.head? = some l) (h : (i.split others).Way σ) :
    ∃ π : List String, (∀ m ∈ π, m ∈ i.labels) ∧ π.flatMap (i.chainLabels others) = σ := by
  induction hk : σ.length using Nat.strongRecOn generalizing σ l with
  | ind k ih =>
    obtain ⟨ρ, rfl⟩ : ∃ ρ, σ = l :: ρ := List.head?_eq_some_iff.mp hh
    obtain ⟨b, hb, rfl⟩ := mem_labels.mp hl
    obtain ⟨τ, he, hτ⟩ := exists_follows_of_way hn hb h
    rcases hτ with ⟨-, rfl⟩ | ⟨m, hm, hmh, hw⟩
    · refine ⟨[b.label], fun m hm => ?_, ?_⟩
      · rw [List.mem_singleton.mp hm]
        exact hl
      · rw [List.flatMap_singleton, he, List.append_nil]
    · have hmem : m ∈ i.labels := hf b hb m hm (hw.mem_labels m (List.mem_of_mem_head? hmh))
      have hlen : τ.length < k := by
        have hpos : i.chainLabels others b.label ≠ [] := fun hnil => by
          have hhead : ([b.label].flatMap (i.chainLabels others)).head? = some b.label :=
            head?_flatMap_chainLabels hn hl []
          rw [List.flatMap_singleton, hnil] at hhead
          cases hhead
        have := List.length_pos_of_ne_nil hpos
        rw [← hk, he, List.length_append]
        omega
      obtain ⟨π, hπ, rfl⟩ := ih τ.length hlen hmem hmh hw rfl
      exact ⟨b.label :: π, List.forall_mem_cons.mpr ⟨hl, hπ⟩, he.symm⟩

theorem entryWay_flatMap_chainLabels_iff (hn : i.labels.Nodup) {π : List String}
    (hπ : ∀ l ∈ π, l ∈ i.labels) :
    (i.split others).EntryWay (π.flatMap (i.chainLabels others)) ↔ i.EntryWay π := by
  have hstart : π ≠ [] → (π.flatMap (i.chainLabels others)).head? = π.head? := by
    cases π with
    | nil => exact fun h => absurd rfl h
    | cons l π => exact fun _ => head?_flatMap_chainLabels hn (hπ l List.mem_cons_self) π
  have hway : (i.split others).Way (π.flatMap (i.chainLabels others)) ↔ i.Way π :=
    way_flatMap_chainLabels_iff hn hπ
  constructor
  · rintro ⟨hs, hw⟩
    rw [hstart (hway.mp hw).ne_nil, entryLabel?_split] at hs
    exact ⟨hs, hway.mp hw⟩
  · rintro ⟨hs, hw⟩
    refine ⟨?_, hway.mpr hw⟩
    rw [hstart hw.ne_nil, entryLabel?_split, hs]

/-- **The ways from the entry of the split implementation are those from the entry, chain by
chain.** -/
theorem entryWay_split_iff (hn : i.labels.Nodup) (hf : i.Clear others) {σ : List String} :
    (i.split others).EntryWay σ ↔
      ∃ π, i.EntryWay π ∧ π.flatMap (i.chainLabels others) = σ := by
  constructor
  · intro h
    obtain ⟨l, hl⟩ : ∃ l, σ.head? = some l :=
      Option.ne_none_iff_exists'.mp (mt List.head?_eq_none_iff.mp h.way.ne_nil)
    have hm : l ∈ i.labels := by
      refine List.mem_of_mem_head? ?_
      show i.entryLabel? = some l
      rw [← entryLabel?_split i others, ← h.start, hl]
    obtain ⟨π, hπ, rfl⟩ := exists_chains_of_way hn hf hm hl h.way
    exact ⟨π, (entryWay_flatMap_chainLabels_iff hn hπ).mp h, rfl⟩
  · rintro ⟨π, hπ, rfl⟩
    exact (entryWay_flatMap_chainLabels_iff hn hπ.way.mem_labels).mpr hπ

/-- **The chain of a reachable block is reachable.** -/
theorem reachable_split {s : Cut} (hs : s ∈ i.cuts others) (h : i.Reachable s.block.label)
    {b : Block} (hb : b ∈ s.chain) : (i.split others).Reachable b.label := by
  have hchain : ∀ {s : Cut}, s ∈ i.cuts others → ∀ {b : Block}, b ∈ s.chain →
      Relation.ReflTransGen (i.split others).Edge s.block.label b.label := by
    intro s hs b hb
    obtain ⟨c, -, hsc⟩ := spells_of_mem_cuts hs
    exact hsc.linked.reaches (mem_blocks_of_mem_chain hs) hb
  obtain ⟨e, he, hr⟩ := h
  refine ⟨e, (entryLabel?_split i others).trans he, .trans ?_ (hchain hs hb)⟩
  clear hs hb
  generalize s.block.label = l at hr
  induction hr with
  | refl => exact .refl
  | tail _ hlm ih =>
    obtain ⟨c, hcb, rfl, hm⟩ := hlm
    obtain ⟨s, hs, hsc⟩ := exists_mem_cuts hcb others
    obtain ⟨d, hd, hdt⟩ := hsc.linked.exists_last
    rw [← hsc.label] at ih
    refine (ih.trans (hchain hs hd)).tail ⟨d, mem_blocks_of_mem_chain hs d hd, rfl, ?_⟩
    rw [Block.successors, hdt]
    exact hm

/-- A label stands in one chain only. -/
theorem label_eq_of_mem_chain {s t : Cut} (hs : s ∈ i.cuts others) (ht : t ∈ i.cuts others)
    {b c : Block} (hb : b ∈ s.chain) (hc : c ∈ t.chain) (h : b.label = c.label) :
    s.block.label = t.block.label := by
  rcases List.mem_cons.mp hb with rfl | hp
  · rcases List.mem_cons.mp hc with rfl | hr
    · exact h
    · exact absurd (h ▸ mem_labels_of_mem_cuts hs)
        (label_notMem_of_mem_pieces ht (List.mem_reverse.mp hr))
  · rcases List.mem_cons.mp hc with rfl | hr
    · exact absurd (h ▸ mem_labels_of_mem_cuts ht)
        (label_notMem_of_mem_pieces hs (List.mem_reverse.mp hp))
    · have hpn := (Block.nodup_labels_cuts (i.labels ++ others) i.blocks).1
      rw [List.map_flatMap] at hpn
      have hp' : b.label ∈ s.pieces.map Block.label :=
        List.mem_map_of_mem (List.mem_reverse.mp hp)
      have hr' : b.label ∈ t.pieces.map Block.label :=
        h ▸ List.mem_map_of_mem (List.mem_reverse.mp hr)
      rw [hpn.eq_of_mem_flatMap hs ht hp' hr']

/-- **A chain that is reachable anywhere is the chain of a reachable block.** -/
theorem reachable_of_mem_chain (hc : i.Closed) {s : Cut} (hs : s ∈ i.cuts others) {b : Block}
    (hb : b ∈ s.chain) (h : (i.split others).Reachable b.label) : i.Reachable s.block.label := by
  obtain ⟨e, he, hr⟩ := h
  rw [entryLabel?_split] at he
  generalize hl : b.label = l at hr
  -- along the path from the entry, the chain of every label begins with a reachable one
  induction hr generalizing s b with
  | refl =>
    obtain ⟨t, ht, hte⟩ := exists_cut_of_mem_labels (List.mem_of_mem_head? he) others
    rw [label_eq_of_mem_chain hs ht hb List.mem_cons_self (hl.trans hte.symm), hte]
    exact ⟨e, he, .refl⟩
  | tail hr hlm ih =>
    obtain ⟨c, hcb, rfl, hm⟩ := hlm
    obtain ⟨t, ht, hct⟩ := mem_blocks_split_iff.mp hcb
    obtain ⟨d, hd, htd⟩ := spells_of_mem_cuts ht
    have hreach := ih ht hct rfl
    rcases htd.linked.mem_of_mem_successors hct hm with hm | hm
    · obtain ⟨u, hu, hul⟩ := exists_cut_of_mem_labels (hc d hd _ hm) others
      rw [label_eq_of_mem_chain hs hu hb List.mem_cons_self (hl.trans hul.symm), hul]
      rw [htd.label] at hreach
      exact hreach.edge ⟨d, hd, rfl, hm⟩
    · obtain ⟨x, hx, hxl⟩ := List.mem_map.mp hm
      rw [label_eq_of_mem_chain hs ht hb (List.mem_of_mem_tail hx) (hl.trans hxl.symm)]
      exact hreach

theorem reachable_split_iff (hc : i.Closed) {s : Cut} (hs : s ∈ i.cuts others) {b : Block}
    (hb : b ∈ s.chain) :
    (i.split others).Reachable b.label ↔ i.Reachable s.block.label :=
  ⟨reachable_of_mem_chain hc hs hb, fun h => reachable_split hs h hb⟩

/-! ## How many blocks there are -/

theorem length_chain {s : Cut} {b : Block} (h : s.Spells b) :
    s.chain.length = b.commands.countP Command.isPreemption + 1 := by
  rw [← List.length_map Block.commands, h.commands, Command.segments, List.length_cons,
    Command.length_laterSegments]

/-- **Of every reachable block there is one block for its start and one for each of its preemption
points.** -/
theorem length_prune_split (hn : i.labels.Nodup) (hc : i.Closed) :
    (i.split others).prune.blocks.length = i.prune.blocks.length +
      (i.prune.blocks.flatMap Block.commands).countP Command.isPreemption := by
  have hreach : ∀ s ∈ i.cuts others, ∀ b ∈ s.chain,
      (i.split others).flow.reachable b.label = i.flow.reachable s.block.label := by
    intro s hs b hb
    rw [Bool.eq_iff_iff, reachable_flow_iff (nodup_labels_split hn others) (closed_split hc others),
      reachable_flow_iff hn hc, reachable_split_iff hc hs hb]
  have hcuts : List.Forall₂ (fun s b =>
      s.chain.countP (fun c => (i.split others).flow.reachable c.label) =
        if i.flow.reachable b.label then b.commands.countP Command.isPreemption + 1 else 0)
      (i.cuts others) i.blocks := by
    refine ((List.forall₂_and_left _ _).mpr ⟨fun _ hs => hs, (forall₂_cuts i others).flip⟩).imp ?_
    intro s b hsb
    obtain ⟨hs, hsb⟩ := hsb
    rw [← length_chain hsb, ← hsb.label]
    split
    · rename_i hr
      exact List.countP_eq_length.mpr fun c hc => (hreach s hs c hc).trans hr
    · rename_i hr
      exact List.countP_eq_zero.mpr fun c hc => (hreach s hs c hc).symm ▸ hr
  show ((i.split others).blocks.filter _).length = (i.blocks.filter _).length +
    ((i.blocks.filter _).flatMap _).countP _
  rw [← List.countP_eq_length_filter, blocks_split, List.countP_append]
  generalize i.cuts others = ss, i.blocks = bs at hcuts
  induction hcuts with
  | nil => rfl
  | @cons s b ss bs h _ ih =>
    rw [Cut.chain, List.countP_cons, List.countP_reverse] at h
    rw [List.map_cons, List.flatMap_cons, List.countP_cons, List.countP_append, List.filter_cons]
    cases hr : i.flow.reachable b.label with
    | true =>
      simp only [hr, if_true, List.length_cons, List.flatMap_cons, List.countP_append] at h ⊢
      omega
    | false =>
      simp only [hr, Bool.false_eq_true, if_false] at h ⊢
      omega

end Implementation

end LayerCheck
