import LayerCheck.Proofs.Sequential.Spliced

/-!
# Bodies in which labels may repeat

If two blocks share a label, a change of "the" block with that label is one of the first of them,
and a jump to the label leads there.  So much is known of every body, also then: the passes keep the
blocks one by one, and what they do to the first block with a label is what they would do to the
only one.

* `Sequential.getElem?_opened`: what opening the loops makes of the block at a position.
* `Sequential.find?_opened`: what it makes of the first block with a label.
* `Sequential.commands_finished`: the commands once yields and parallel calls are taken out.
* `Sequential.exists_aggregatorCall`: what has become of a parallel call.
-/

namespace LayerCheck.Sequential

variable {q : Sequential}

/-! ## Opening the loops -/

/-- The commands of the head of a yielding loop, opened. -/
def openedCommands (q : Sequential) (l : String) (cs : List Command) : List Command :=
  (q.openLoop { label := l, commands := cs }).commands

theorem commands_openLoop (b : Block) :
    (q.openLoop b).commands = q.openedCommands b.label b.commands := rfl

/-- The site at the head of a loop. -/
abbrev headSite (q : Sequential) (l : String) : Site := q.setting.copies.headSite q.name l

/-- What stands at the beginning of the head of a loop that is opened `n` times. -/
theorem isPredicate_of_mem_opened {l : String} {cs : List Command} {n : Nat} {c : Command}
    (hc : c ∈ Command.leadingPredicates cs ++
      (List.replicate n (q.refinement.assumeGate ++ q.loopInvariants l)).flatten) :
    c.isPredicate = true := by
  rcases List.mem_append.mp hc with hc | hc
  · exact List.mem_takeWhile_imp hc
  · obtain ⟨ds, hds, hc⟩ := List.mem_flatten.mp hc
    rw [List.eq_of_mem_replicate hds] at hc
    rcases List.mem_append.mp hc with hc | hc
    · exact isPredicate_of_mem_assumeGate hc
    · exact isPredicate_of_mem_loopInvariants hc

/-- **The head of a loop that is opened `n` times.**  The predicates at its very beginning stay
there, and whatever is added to them comes in behind. -/
theorem iterate_openedCommands (q : Sequential) (l : String) (cs : List Command) (n : Nat) :
    (q.openedCommands l)^[n] cs =
      Command.leadingPredicates cs ++
        (List.replicate n (q.refinement.assumeGate ++ q.loopInvariants l)).flatten ++
        ((List.replicate n (q.touchGlobals ++ q.beginStep (q.headSite l))).flatten ++
          cs.drop (Command.leadingPredicates cs).length) := by
  induction n with
  | zero => simpa using (Command.leadingPredicates_append_drop cs).symm
  | succ n ih =>
    -- what comes behind the predicates begins with none, so the next ones go in there
    have hrest : ∀ c ∈ ((List.replicate n (q.touchGlobals ++
        q.beginStep (q.headSite l))).flatten ++
          cs.drop (Command.leadingPredicates cs).length).head?, c.isPredicate = false := by
      intro c hc
      rw [List.head?_append, Option.mem_def, Option.or_eq_some_iff] at hc
      rcases hc with hc | ⟨-, hc⟩
      · obtain ⟨ds, hds, hc⟩ := List.mem_flatten.mp (List.mem_of_mem_head? hc)
        rw [List.eq_of_mem_replicate hds] at hc
        exact isPredicate_of_mem_beginStep hc
      · exact Command.isPredicate_head?_drop cs c hc
    rw [Function.iterate_succ_apply', ih, openedCommands, openLoop]
    simp only [Command.leadingPredicates_append (fun c hc => isPredicate_of_mem_opened hc) hrest,
      List.drop_left]
    rw [List.replicate_succ', List.replicate_succ, List.flatten_append, List.flatten_cons]
    simp

/-- The block `c` is `b` with some jumps to checks, opened as the head of a loop `n` times. -/
structure Opened (q : Sequential) (n : Nat) (b c : Block) : Prop where
  label : c.label = b.label
  transfer : ∃ ls, (∀ l ∈ ls, l ∈ Label.reserved) ∧ c.transfer = b.transfer.addAll ls
  commands : c.commands = (q.openedCommands b.label)^[n] b.commands

namespace Opened

theorem refl (q : Sequential) (b : Block) : q.Opened 0 b b :=
  ⟨rfl, ⟨[], fun _ hl => absurd hl List.not_mem_nil, rfl⟩, rfl⟩

variable {n : Nat} {b c : Block}

theorem checkStep (h : q.Opened n b c) (inLoop : Bool) :
    q.Opened n b (checkStep inLoop c) := by
  obtain ⟨ls, hls, hc⟩ := h.transfer
  refine ⟨h.label, ⟨ls ++ [Label.noninterference, stepChecker inLoop], ?_, ?_⟩, h.commands⟩
  · intro l hl
    rcases List.mem_append.mp hl with hl | hl
    · exact hls l hl
    · rcases List.mem_cons.mp hl with rfl | hl
      · decide
      · rw [List.mem_singleton.mp hl]
        exact stepChecker_mem_reserved inLoop
  · rw [checkStep_eq, Transfer.addAll_append, ← hc]

theorem openLoop (h : q.Opened n b c) : q.Opened (n + 1) b (q.openLoop c) := by
  refine ⟨h.label, h.transfer, ?_⟩
  rw [commands_openLoop, h.label, h.commands, Function.iterate_succ_apply']

end Opened

/-- How often the block at a position is opened.  A label that several blocks share stands for the
first of them, but is listed once for each. -/
def openings (q : Sequential) (k : Nat) : Nat :=
  q.headers.countP fun l => q.base.indexOf? l = some k

section Position

variable {g : FlowGraph} {inLoops : List String} {n k : Nat} {b c : Block} {cs : List Block}

theorem labels_checks (inLoops ps : List String) (cs : List Block) :
    (ps.foldl (fun bs p => Block.modifyFirst p (checkStep (inLoops.contains p)) bs) cs).map
      Block.label = cs.map Block.label := by
  induction ps generalizing cs with
  | nil => rfl
  | cons p ps ih => exact (ih _).trans (Block.map_label_modifyFirst (fun b => label_checkStep _ b) cs)

theorem labels_enterLoop (header : String) :
    (q.enterLoop g inLoops cs header).map Block.label = cs.map Block.label :=
  (Block.map_label_modifyFirst (fun b => label_openLoop q b) _).trans (labels_checks inLoops _ cs)

theorem getElem?_checks (inLoops : List String) (hc : cs[k]? = some c) (h : q.Opened n b c)
    (ps : List String) :
    ∃ d, (ps.foldl (fun bs p => Block.modifyFirst p (checkStep (inLoops.contains p)) bs) cs)[k]? =
      some d ∧ q.Opened n b d := by
  induction ps generalizing cs c with
  | nil => exact ⟨c, hc, h⟩
  | cons p ps ih =>
    refine ih (c := if (cs.map Block.label).idxOf? p = some k then
      checkStep (inLoops.contains p) c else c) ?_ ?_
    · rw [Block.getElem?_modifyFirst, hc]
      rfl
    · split
      · exact h.checkStep _
      · exact h

theorem getElem?_enterLoop (hl : cs.map Block.label = q.base.labels) (hc : cs[k]? = some c)
    (h : q.Opened n b c) (header : String) :
    ∃ d, (q.enterLoop g inLoops cs header)[k]? = some d ∧
      q.Opened (n + if q.base.indexOf? header = some k then 1 else 0) b d := by
  obtain ⟨d, hd, hbd⟩ := getElem?_checks inLoops hc h (g.predecessors header)
  refine ⟨if q.base.indexOf? header = some k then q.openLoop d else d, ?_, ?_⟩
  · rw [enterLoop, Block.getElem?_modifyFirst, hd, labels_checks, hl]
    rfl
  · split
    · exact hbd.openLoop
    · exact hbd

/-- **What opening the loops makes of the block at a position.** -/
theorem getElem?_opened (hb : q.base.blocks[k]? = some b) :
    ∃ c, q.opened[k]? = some c ∧ q.Opened (q.openings k) b c := by
  have h : ∀ (hs : List String) {cs : List Block} {n : Nat} {c : Block},
      cs.map Block.label = q.base.labels → cs[k]? = some c → q.Opened n b c →
      ∃ d, (hs.foldl (q.enterLoop q.base.flow q.inLoops) cs)[k]? = some d ∧
        q.Opened (n + hs.countP fun l => q.base.indexOf? l = some k) b d := by
    intro hs
    induction hs with
    | nil => exact fun _ hc hbc => ⟨_, hc, hbc⟩
    | cons h hs ih =>
      intro cs n c hl hc hbc
      obtain ⟨d, hd, hbd⟩ := getElem?_enterLoop hl hc hbc h
      obtain ⟨e, he, hbe⟩ := ih ((labels_enterLoop h).trans hl) hd hbd
      refine ⟨e, he, ?_⟩
      rw [List.countP_cons, Nat.add_comm (List.countP _ hs), ← Nat.add_assoc]
      simpa using hbe
  obtain ⟨c, hc, hbc⟩ := h q.headers rfl hb (.refl q b)
  rw [Nat.zero_add] at hbc
  exact ⟨c, hc, hbc⟩

end Position

theorem labels_opened (q : Sequential) : q.opened.map Block.label = q.base.labels := by
  have h : ∀ (hs : List String) (cs : List Block),
      (hs.foldl (q.enterLoop q.base.flow q.inLoops) cs).map Block.label = cs.map Block.label := by
    intro hs
    induction hs with
    | nil => exact fun _ => rfl
    | cons h hs ih => exact fun cs => (ih _).trans (labels_enterLoop h)
  exact h q.headers q.base.blocks

theorem length_opened (q : Sequential) : q.opened.length = q.base.blocks.length := by
  have h := congrArg List.length q.labels_opened
  rwa [List.length_map, Implementation.labels, List.length_map] at h

/-- **Opening the loops keeps the blocks of the base, one by one.** -/
theorem forall₂_opened (q : Sequential) :
    List.Forall₂ (fun b c => ∃ n, q.Opened n b c) q.base.blocks q.opened := by
  refine List.forall₂_iff_get.mpr ⟨q.length_opened.symm, fun k hb hc => ?_⟩
  obtain ⟨c, hk, hbc⟩ := getElem?_opened (List.getElem?_eq_getElem hb)
  obtain rfl : q.opened[k] = c := (List.getElem?_eq_some_iff.mp hk).2
  exact ⟨_, hbc⟩

/-- The first block with a label is opened once for every time that the label is listed. -/
theorem openings_eq_count {l : String} {k : Nat} (hk : q.base.indexOf? l = some k) :
    q.openings k = q.headers.count l := by
  refine List.countP_congr fun h _ => ?_
  obtain ⟨hlt, hl, -⟩ := List.idxOf?_eq_some_iff.mp hk
  rw [decide_eq_true_iff, beq_iff_eq]
  constructor
  · intro he
    obtain ⟨_, hh, -⟩ := List.idxOf?_eq_some_iff.mp he
    exact hh.symm.trans hl
  · exact fun he => he ▸ hk

/-- **The first block with a label is opened once for every time that the label is listed.** -/
theorem find?_opened {b : Block} {l : String} (hb : q.base.block? l = some b) :
    ∃ c, q.opened.find? (·.label == l) = some c ∧ q.Opened (q.headers.count l) b c := by
  rw [Implementation.block?, Block.find?_label_eq, Option.bind_eq_some_iff] at hb
  obtain ⟨k, hk, hb⟩ := hb
  obtain ⟨c, hc, hbc⟩ := getElem?_opened hb
  refine ⟨c, ?_, openings_eq_count hk ▸ hbc⟩
  rw [Block.find?_label_eq, labels_opened, Implementation.labels, hk]
  exact hc

/-! ## Commands that other threads may come in at -/

/-- Opening a loop adds nothing that lets other threads run. -/
theorem mem_of_mem_openedCommands {l : String} {cs : List Command} {c : Command}
    (hc : c ∈ q.openedCommands l cs) (hp : c.isPreemption = true) : c ∈ cs := by
  have hplain : ∀ {ds : List Command}, Command.Plain ds → c ∉ ds := by
    intro ds hd hm
    rw [hd c hm] at hp
    cases hp
  simp only [openedCommands, openLoop, List.mem_append] at hc
  rcases hc with (((((hc | hc) | hc) | hc) | hc) | hc)
  · exact absurd hc (hplain (.leadingPredicates cs))
  · exact absurd hc (hplain q.plain_assumeGate)
  · exact absurd hc (hplain (q.plain_loopInvariants l))
  · exact absurd hc (hplain (.assignAll _ _))
  · exact absurd hc (hplain (q.plain_store.append (q.plain_collect _)))
  · exact List.mem_of_mem_drop hc

theorem Opened.mem_of_mem {n : Nat} {b c : Block} (h : q.Opened n b c) {m : Command}
    (hm : m ∈ c.commands) (hp : m.isPreemption = true) : m ∈ b.commands := by
  rw [h.commands] at hm
  clear h
  induction n with
  | zero => exact hm
  | succ n ih =>
    rw [Function.iterate_succ_apply'] at hm
    exact ih (mem_of_mem_openedCommands hm hp)

theorem mem_parCalls_iff {p : ParCall} :
    p ∈ q.parCalls ↔ ∃ c ∈ q.opened, ∃ rest, c.commands = .par p :: rest := by
  rw [parCalls, List.mem_filterMap]
  constructor
  · intro hx
    obtain ⟨c, hc, hp⟩ := hx
    split at hp
    · rename_i r hr
      obtain ⟨rest, hr⟩ := List.head?_eq_some_iff.mp hr
      exact ⟨c, hc, rest, by rw [hr, Option.some_inj.mp hp]⟩
    · cases hp
  · intro hx
    obtain ⟨c, hc, rest, hr⟩ := hx
    exact ⟨c, hc, by rw [Block.head?, hr]; rfl⟩

/-- **The parallel calls that are replaced are those of the copy.** -/
theorem mem_source_of_mem_parCalls {p : ParCall} (hp : p ∈ q.parCalls) :
    ∃ d ∈ q.source.blocks, .par p ∈ d.commands := by
  obtain ⟨c, hc, rest, hr⟩ := mem_parCalls_iff.mp hp
  obtain ⟨b, hb, n, hbc⟩ := q.forall₂_opened.exists_of_mem_right hc
  have hm : .par p ∈ b.commands := hbc.mem_of_mem (hr ▸ List.mem_cons_self) rfl
  obtain ⟨-, -, -, d, hd, -, hdp⟩ := exists_of_mem_commands_base hb hm rfl
  exact ⟨d, hd, hdp⟩

/-- A preemption point of the table stands at the head of a block. -/
theorem exists_of_get?_preemptions {blocks : List Block} {l : String} {m : Command}
    (hm : (preemptions blocks).get? l = some m) : ∃ c ∈ blocks, ∃ rest, c.commands = m :: rest := by
  rw [preemptions, Table.get?_ofList, List.lookup_eq_some_iff] at hm
  obtain ⟨es, fs, he, -⟩ := hm
  have hmem : (l, m) ∈ blocks.filterMap fun b => b.preemption?.map (b.label, ·) := by
    rw [← List.mem_reverse, he]
    exact List.mem_append_right _ List.mem_cons_self
  obtain ⟨c, hc, hcm⟩ := List.mem_filterMap.mp hmem
  obtain ⟨m', hm', he⟩ := Option.map_eq_some_iff.mp hcm
  cases he
  exact ⟨c, hc, (preemption?_eq_some_iff.mp hm').2⟩

/-- **The components that are met have prepared checks of the copy.** -/
theorem prepared_opened (q : Sequential) :
    q.Prepared ((q.opened.flatMap (targets (preemptions q.opened))).flatMap q.components) := by
  intro k hk
  obtain ⟨m, hm, hkm⟩ := List.mem_flatMap.mp hk
  obtain ⟨p, rfl, call, hcall, hid, -, hr⟩ := mem_components hkm
  obtain ⟨c, -, hc⟩ := List.mem_flatMap.mp hm
  obtain ⟨l, -, hl⟩ := List.mem_filterMap.mp hc
  obtain ⟨e, he, rest, her⟩ := exists_of_get?_preemptions hl
  obtain ⟨b, hb, hpb⟩ := mem_source_of_mem_parCalls (mem_parCalls_iff.mpr ⟨e, he, rest, her⟩)
  have hsource : p ∈ q.source.parCalls := by
    rw [Implementation.parCalls_eq, List.mem_filterMap]
    exact ⟨.par p, List.mem_flatMap.mpr ⟨b, hb, hpb⟩, rfl⟩
  rw [hid]
  exact get?_preparedBlocks hsource hcall hr

/-! ## The finished blocks -/

theorem branch_eq (heads : Table String Command) (inLoops : List String) (b : Block) :
    (q.branch heads inLoops b).label = b.label ∧
      (q.branch heads inLoops b).commands = b.commands := by
  rw [branch]
  split
  · exact ⟨rfl, rfl⟩
  · simp only [foldl_addSuccessor]
    split <;> exact ⟨rfl, rfl⟩

/-- What has become of a block once the loops are opened. -/
abbrev finished (q : Sequential) (c : Block) : Block :=
  q.replaceHead q.inLoops (q.branch (preemptions q.opened) q.inLoops c)

theorem label_finished (q : Sequential) (c : Block) : (q.finished c).label = c.label := by
  have hb := (q.branch_eq (preemptions q.opened) q.inLoops c).1
  rw [finished, replaceHead]
  split <;> exact hb

theorem transfer_finished (q : Sequential) (c : Block) :
    (q.finished c).transfer = (q.branch (preemptions q.opened) q.inLoops c).transfer := by
  rw [finished, replaceHead]
  split <;> rfl

theorem find?_finished (q : Sequential) (l : String) :
    (q.opened.map q.finished).find? (·.label == l) =
      (q.opened.find? (·.label == l)).map q.finished := by
  rw [List.find?_map]
  congr 2
  funext c
  simp only [Function.comp_apply, label_finished]

theorem blocks_implementation (q : Sequential) :
    q.implementation.blocks = q.initialBlock q.others :: (q.opened.map q.finished ++
      q.checkers ++ q.spliced (preemptions q.opened) q.opened) := rfl

/-- Behind the initial block stand the blocks that have been finished. -/
theorem take_implementation {n : Nat} (h : q.opened.length = n) :
    q.implementation.blocks.tail.take n = q.opened.map q.finished := by
  rw [blocks_implementation, List.tail_cons, List.append_assoc]
  exact List.take_left' ((List.length_map _).trans h)

/-- Yields and parallel calls are taken out of the heads of blocks. -/
theorem commands_finished (q : Sequential) (c : Block) :
    (q.finished c).commands = match c.commands with
      | .yield id :: rest => q.afterYield (q.inLoops.contains c.label) id rest
      | .par p :: rest => q.afterParCall (q.inLoops.contains c.label) p rest
      | cs => cs := by
  obtain ⟨hl, hc⟩ := q.branch_eq (preemptions q.opened) q.inLoops c
  rw [finished, replaceHead, hl, hc]
  split <;> simp_all

/-- **Every parallel call that is replaced has become a call of its aggregator.** -/
theorem exists_aggregatorCall {p : ParCall} (hp : p ∈ q.parCalls) :
    ∃ b ∈ q.implementation.blocks, ∃ inLoop rest, b.commands = q.afterParCall inLoop p rest := by
  obtain ⟨c, hc, rest, hr⟩ := mem_parCalls_iff.mp hp
  refine ⟨q.finished c, ?_, q.inLoops.contains c.label, rest, by rw [commands_finished, hr]⟩
  refine List.mem_cons_of_mem _ (List.mem_append_left _ (List.mem_append_left _ ?_))
  exact List.mem_map_of_mem hc

end LayerCheck.Sequential
