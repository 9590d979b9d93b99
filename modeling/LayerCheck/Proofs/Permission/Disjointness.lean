import LayerCheck.Permission.Disjointness
import LayerCheck.Proofs.Flow.Paths
import LayerCheck.Proofs.Lists
import LayerCheck.Proofs.Program.Block

/-!
# What disjointness assumptions change

Labels and jumps stay as they are.  The commands of a block stay in order; assumptions come in
behind calls and parallel calls and in front of the first command of a loop header, so never between
a yield and the predicates that follow it.

* `Implementation.forall₂_withDisjointness`: every block stays, with assumptions.
* `Implementation.blocks_withDisjointness`: the new blocks, if labels are distinct.
* `Command.leadingPredicates_flatMap_assumeAfter`: the predicates at the start of a list are kept.
-/

namespace LayerCheck

namespace Permissions

variable (p : Permissions) (yielding : List String) (scope : List Variable)

theorem isPredicate_of_mem_assumeDisjoint {s : Site} {globals : List Variable} {c : Command}
    (h : c ∈ p.assumeDisjoint s scope globals) : c.isPredicate = true := by
  obtain ⟨e, -, rfl⟩ := List.mem_map.mp h
  rfl

theorem assumeAfter_eq (c : Command) :
    ∃ as, p.assumeAfter yielding scope c = c :: as ∧ ∀ a ∈ as, a.isPredicate = true := by
  refine ⟨_, rfl, ?_⟩
  intro a ha
  cases h : c.yieldSite? yielding with
  | none => simp [h] at ha
  | some s =>
    rw [h] at ha
    exact p.isPredicate_of_mem_assumeDisjoint scope ha

theorem assumeAfter_of_yieldSite?_eq_none {c : Command} (h : c.yieldSite? yielding = none) :
    p.assumeAfter yielding scope c = [c] := by
  rw [assumeAfter, h]
  rfl

end Permissions

namespace Command

variable (p : Permissions) (yielding : List String) (scope : List Variable)

theorem yieldSite?_eq_none_of_isPredicate {c : Command} (h : c.isPredicate = true) :
    c.yieldSite? yielding = none := by
  cases c with
  | assume e => rfl
  | assert e m => rfl
  | assign ts vs => rfl
  | havoc vs => rfl
  | call c => exact absurd h (by simp [isPredicate, predicate?])
  | yield id => rfl
  | par c => exact absurd h (by simp [isPredicate, predicate?])

theorem isPreemption_of_isPredicate {c : Command} (h : c.isPredicate = true) :
    c.isPreemption = false := by
  cases c with
  | yield id => exact absurd h (by simp [isPredicate, predicate?])
  | par c => exact absurd h (by simp [isPredicate, predicate?])
  | assign ts vs => rfl
  | havoc vs => rfl
  | assume e => rfl
  | assert e m => rfl
  | call c => rfl

theorem leadingPredicates_append_drop (cs : List Command) :
    leadingPredicates cs ++ cs.drop (leadingPredicates cs).length = cs := by
  induction cs with
  | nil => rfl
  | cons c cs ih =>
    cases h : c.isPredicate with
    | true => simpa [leadingPredicates, h] using ih
    | false => simp [leadingPredicates, h]

/-- The command after the leading predicates is no predicate. -/
theorem isPredicate_head?_drop (cs : List Command) :
    ∀ c ∈ (cs.drop (leadingPredicates cs).length).head?, c.isPredicate = false := by
  induction cs with
  | nil => simp
  | cons c cs ih =>
    cases h : c.isPredicate with
    | true => simpa [leadingPredicates, h] using ih
    | false => simp [leadingPredicates, h]

theorem leadingPredicates_append {cs ds : List Command} (hc : ∀ c ∈ cs, c.isPredicate = true)
    (hd : ∀ d ∈ ds.head?, d.isPredicate = false) : leadingPredicates (cs ++ ds) = cs := by
  rw [leadingPredicates, List.takeWhile_append_of_pos hc]
  cases ds with
  | nil => simp
  | cons d ds => simp [hd d rfl]

theorem leadingPredicates_flatMap_assumeAfter (cs : List Command) :
    leadingPredicates (cs.flatMap (p.assumeAfter yielding scope)) = leadingPredicates cs := by
  induction cs with
  | nil => rfl
  | cons c cs ih =>
    rw [List.flatMap_cons]
    cases h : c.isPredicate with
    | true =>
      rw [p.assumeAfter_of_yieldSite?_eq_none yielding scope
        (yieldSite?_eq_none_of_isPredicate yielding h)]
      simpa [leadingPredicates, h] using ih
    | false => simp [leadingPredicates, Permissions.assumeAfter, h]

theorem countP_isPreemption_eq_zero {cs : List Command} (h : ∀ c ∈ cs, c.isPredicate = true) :
    cs.countP isPreemption = 0 := by
  rw [List.countP_eq_zero]
  intro c hc
  rw [isPreemption_of_isPredicate (h c hc)]
  decide

/-- No preemption point is added. -/
theorem countP_isPreemption_flatMap (cs : List Command) :
    (cs.flatMap (p.assumeAfter yielding scope)).countP isPreemption = cs.countP isPreemption := by
  induction cs with
  | nil => rfl
  | cons c cs ih =>
    obtain ⟨as, ha, hp⟩ := p.assumeAfter_eq yielding scope c
    rw [List.flatMap_cons, List.countP_append, ih, ha, List.countP_cons, List.countP_cons,
      countP_isPreemption_eq_zero hp]
    omega

/-- A command that is no predicate was there before the assumptions came in. -/
theorem exists_of_flatMap_assumeAfter_eq {cs pre rest : List Command} {m : Command}
    (hm : m.isPredicate = false)
    (h : cs.flatMap (p.assumeAfter yielding scope) = pre ++ m :: rest) :
    ∃ pre' rest', cs = pre' ++ m :: rest' ∧ m :: rest =
      p.assumeAfter yielding scope m ++ rest'.flatMap (p.assumeAfter yielding scope) := by
  induction cs generalizing pre with
  | nil => simp at h
  | cons c cs ih =>
    obtain ⟨as, ha, hp⟩ := p.assumeAfter_eq yielding scope c
    rw [List.flatMap_cons] at h
    rcases List.append_eq_append_iff.mp h with ⟨mid, hpre, hmid⟩ | ⟨mid, hmid, hrest⟩
    · obtain ⟨pre', rest', rfl, hr⟩ := ih hmid
      exact ⟨c :: pre', rest', rfl, hr⟩
    · cases mid with
      | nil =>
        have hrest : cs.flatMap (p.assumeAfter yielding scope) = [] ++ m :: rest := hrest.symm
        obtain ⟨pre', rest', rfl, hr⟩ := ih hrest
        exact ⟨c :: pre', rest', rfl, hr⟩
      | cons d mid =>
        obtain ⟨rfl, rfl⟩ := List.cons.inj hrest
        -- The command stands in what belongs to `c`, so it is `c` itself.
        rw [ha] at hmid
        cases pre with
        | nil =>
          obtain ⟨rfl, hmid⟩ := List.cons.inj hmid
          refine ⟨[], cs, rfl, ?_⟩
          rw [ha, hmid]
          rfl
        | cons d pre =>
          rw [List.cons_append, List.cons.injEq] at hmid
          have hmem : m ∈ as := by
            rw [hmid.2]
            exact List.mem_append_right _ List.mem_cons_self
          rw [hp m hmem] at hm
          cases hm

/-- The parallel call that the command is. -/
def par? : Command → Option ParCall
  | .par p => some p
  | _ => none

theorem eq_par_of_par? {c : Command} {p : ParCall} (h : c.par? = some p) : c = .par p := by
  cases c with
  | par p' => rw [Option.some_inj.mp h]
  | _ => cases h

theorem filterMap_par?_eq_nil {cs : List Command} (h : ∀ c ∈ cs, c.isPredicate = true) :
    cs.filterMap par? = [] := by
  rw [List.filterMap_eq_nil_iff]
  intro c hc
  cases c with
  | par p => exact absurd (h _ hc) (by simp [isPredicate, predicate?])
  | _ => rfl

theorem filterMap_par?_flatMap_assumeAfter (cs : List Command) :
    (cs.flatMap (p.assumeAfter yielding scope)).filterMap par? = cs.filterMap par? := by
  induction cs with
  | nil => rfl
  | cons c cs ih =>
    obtain ⟨as, ha, hp⟩ := p.assumeAfter_eq yielding scope c
    rw [List.flatMap_cons, List.filterMap_append, ih, ha, List.filterMap_cons, List.filterMap_cons,
      filterMap_par?_eq_nil hp]
    cases c.par? <;> rfl

end Command

/-- `c` is the block `b` with disjointness assumptions at its head and behind its commands. -/
structure Block.Assumed (p : Permissions) (yielding : List String) (scope : List Variable)
    (b c : Block) : Prop where
  label : c.label = b.label
  transfer : c.transfer = b.transfer
  assumptions : ∃ as, (∀ a ∈ as, ∃ site, a ∈ p.assumeDisjoint site scope) ∧
    c.commands = as ++ b.commands.flatMap (p.assumeAfter yielding scope)

theorem Block.Assumed.commands {p : Permissions} {yielding : List String} {scope : List Variable}
    {b c : Block} (h : Block.Assumed p yielding scope b c) :
    ∃ as, (∀ a ∈ as, a.isPredicate = true) ∧
      c.commands = as ++ b.commands.flatMap (p.assumeAfter yielding scope) := by
  obtain ⟨as, ha, hc⟩ := h.assumptions
  refine ⟨as, fun a hm => ?_, hc⟩
  obtain ⟨_, hs⟩ := ha a hm
  exact p.isPredicate_of_mem_assumeDisjoint scope hs

/-- What is added are predicates. -/
theorem Block.Assumed.mem_of_mem {p : Permissions} {yielding : List String} {scope : List Variable}
    {b c : Block} (h : Block.Assumed p yielding scope b c) {d : Command} (hd : d ∈ c.commands)
    (hp : d.isPredicate = false) : d ∈ b.commands := by
  obtain ⟨as, ha, hc⟩ := h.commands
  rw [hc] at hd
  rcases List.mem_append.mp hd with hd | hd
  · rw [ha d hd] at hp
    cases hp
  · obtain ⟨e, he, hde⟩ := List.mem_flatMap.mp hd
    obtain ⟨as', hae, hap⟩ := p.assumeAfter_eq yielding scope e
    rw [hae] at hde
    rcases List.mem_cons.mp hde with rfl | hde
    · exact he
    · rw [hap d hde] at hp
      cases hp

namespace Implementation

theorem parCalls_eq (i : Implementation) :
    i.parCalls = (i.blocks.flatMap Block.commands).filterMap Command.par? := rfl

variable (i : Implementation) (p : Permissions) (copies : Copies) (yielding : List String)

/-- The assumptions at the head of the block with the label. -/
def headAssumptions (label : String) : List Command :=
  if label ∈ (i.assumeAfterCalls p yielding).flow.loopHeaders then
    p.assumeDisjoint (copies.headSite i.name label) i.vars
  else []

theorem isPredicate_of_mem_headAssumptions {i : Implementation} {p : Permissions} {copies : Copies}
    {yielding : List String} {label : String} {c : Command}
    (hc : c ∈ i.headAssumptions p copies yielding label) : c.isPredicate = true := by
  rw [headAssumptions] at hc
  split at hc
  · exact p.isPredicate_of_mem_assumeDisjoint _ hc
  · simp at hc

/-- The commands of a block with all disjointness assumptions. -/
def assumedCommands (b : Block) : List Command :=
  i.headAssumptions p copies yielding b.label ++ b.commands.flatMap (p.assumeAfter yielding i.vars)

theorem exists_of_assumedCommands_eq {b : Block} {pre rest : List Command} {m : Command}
    (hm : m.isPredicate = false)
    (h : i.assumedCommands p copies yielding b = pre ++ m :: rest) :
    ∃ pre' rest', b.commands = pre' ++ m :: rest' ∧ m :: rest =
      p.assumeAfter yielding i.vars m ++ rest'.flatMap (p.assumeAfter yielding i.vars) := by
  rw [assumedCommands] at h
  rcases List.append_eq_append_iff.mp h with ⟨mid, hpre, hmid⟩ | ⟨mid, hmid, hrest⟩
  · exact Command.exists_of_flatMap_assumeAfter_eq p yielding i.vars hm hmid
  · cases mid with
    | nil =>
      have hrest : b.commands.flatMap (p.assumeAfter yielding i.vars) = [] ++ m :: rest :=
        hrest.symm
      exact Command.exists_of_flatMap_assumeAfter_eq p yielding i.vars hm hrest
    | cons d mid =>
      rw [List.cons_append, List.cons.injEq] at hrest
      have hmem : m ∈ i.headAssumptions p copies yielding b.label := by
        rw [hmid, hrest.1]
        exact List.mem_append_right _ List.mem_cons_self
      rw [isPredicate_of_mem_headAssumptions hmem] at hm
      cases hm

theorem countP_isPreemption_assumedCommands (b : Block) :
    (i.assumedCommands p copies yielding b).countP Command.isPreemption =
      b.commands.countP Command.isPreemption := by
  rw [assumedCommands, List.countP_append, Command.countP_isPreemption_flatMap,
    Command.countP_isPreemption_eq_zero fun c hc => isPredicate_of_mem_headAssumptions hc,
    Nat.zero_add]

theorem foldl_assumeAtHead (hs : List String) :
    hs.foldl (fun i h => i.assumeAtHead p copies h) i =
      { i with
        blocks := hs.foldl (fun bs h => Block.modifyFirst h (fun b =>
          { b with
            commands := p.assumeDisjoint (copies.headSite i.name h) i.vars ++ b.commands }) bs)
          i.blocks } := by
  induction hs generalizing i with
  | nil => rfl
  | cons h hs ih =>
    rw [List.foldl_cons, ih]
    rfl

/-- Nothing changes but the blocks. -/
theorem withDisjointness_eq : i.withDisjointness p copies yielding =
    { i with blocks := (i.withDisjointness p copies yielding).blocks } := by
  rw [withDisjointness, foldl_assumeAtHead]
  rfl

/-- **Every block stays, with assumptions at its head and behind its commands.** -/
theorem forall₂_withDisjointness :
    List.Forall₂ (Block.Assumed p yielding i.vars) i.blocks
      (i.withDisjointness p copies yielding).blocks := by
  simp only [withDisjointness, foldl_assumeAtHead]
  generalize (i.assumeAfterCalls p yielding).flow.loopHeaders = hs
  have hafter : List.Forall₂ (Block.Assumed p yielding i.vars) i.blocks
      (i.assumeAfterCalls p yielding).blocks := by
    rw [assumeAfterCalls, List.forall₂_map_right_iff, List.forall₂_same]
    exact fun b _ => ⟨rfl, rfl, [], fun a ha => absurd ha List.not_mem_nil, rfl⟩
  generalize (i.assumeAfterCalls p yielding).blocks = bs at hafter
  induction hs generalizing bs with
  | nil => exact hafter
  | cons h hs ih =>
    refine ih _ (Block.forall₂_modifyFirst (fun b c hbc => ?_) hafter)
    obtain ⟨as, ha, hc⟩ := hbc.assumptions
    refine ⟨hbc.label, hbc.transfer, p.assumeDisjoint (copies.headSite i.name h) i.vars ++ as, ?_, ?_⟩
    · intro a hm
      rcases List.mem_append.mp hm with hm | hm
      · exact ⟨_, hm⟩
      · exact ha a hm
    · rw [List.append_assoc, ← hc]
      rfl

variable {i}

theorem labels_withDisjointness :
    (i.withDisjointness p copies yielding).labels = i.labels := by
  have h := i.forall₂_withDisjointness p copies yielding
  rw [labels, labels]
  generalize (i.withDisjointness p copies yielding).blocks = cs, i.blocks = bs at h
  induction h with
  | nil => rfl
  | cons hb _ ih => rw [List.map_cons, List.map_cons, hb.label, ih]

theorem entryLabel?_withDisjointness :
    (i.withDisjointness p copies yielding).entryLabel? = i.entryLabel? := by
  rw [entryLabel?, labels_withDisjointness]
  rfl

theorem edge_withDisjointness_iff {a b : String} :
    (i.withDisjointness p copies yielding).Edge a b ↔ i.Edge a b := by
  have h := i.forall₂_withDisjointness p copies yielding
  constructor
  · intro hx
    obtain ⟨c, hc, rfl, hb⟩ := hx
    obtain ⟨d, hd, hdc⟩ := h.exists_of_mem_right hc
    exact ⟨d, hd, hdc.label.symm, by rwa [Block.successors, ← hdc.transfer]⟩
  · intro hx
    obtain ⟨c, hc, rfl, hb⟩ := hx
    obtain ⟨d, hd, hcd⟩ := h.exists_of_mem_left hc
    exact ⟨d, hd, hcd.label, by rwa [Block.successors, hcd.transfer]⟩

theorem closed_withDisjointness (hc : i.Closed) :
    (i.withDisjointness p copies yielding).Closed := by
  intro b hb t ht
  rw [labels_withDisjointness]
  exact hc.mem_labels_of_edge ((edge_withDisjointness_iff p copies yielding).mp ⟨b, hb, rfl, ht⟩)

theorem reachable_withDisjointness_iff {l : String} :
    (i.withDisjointness p copies yielding).Reachable l ↔ i.Reachable l := by
  have he : (i.withDisjointness p copies yielding).Edge = i.Edge := by
    funext a b
    exact propext (edge_withDisjointness_iff p copies yielding)
  rw [Reachable, Reachable, he, entryLabel?_withDisjointness p copies yielding]

theorem parCalls_withDisjointness :
    (i.withDisjointness p copies yielding).parCalls = i.parCalls := by
  have h := i.forall₂_withDisjointness p copies yielding
  rw [parCalls_eq, parCalls_eq, List.filterMap_flatMap, List.filterMap_flatMap]
  generalize (i.withDisjointness p copies yielding).blocks = cs, i.blocks = bs at h
  induction h with
  | nil => rfl
  | cons hb _ ih =>
    obtain ⟨as, ha, hc⟩ := hb.commands
    rw [List.flatMap_cons, List.flatMap_cons, ih, hc, List.filterMap_append,
      Command.filterMap_par?_eq_nil ha, List.nil_append,
      Command.filterMap_par?_flatMap_assumeAfter]

/-! ## Blocks of an implementation with distinct labels -/

variable (i)

/-- **Disjointness assumptions are inserted into each block on its own.** -/
theorem blocks_withDisjointness (hn : i.labels.Nodup) :
    (i.withDisjointness p copies yielding).blocks =
      i.blocks.map fun b => { b with commands := i.assumedCommands p copies yielding b } := by
  have hl : ((i.assumeAfterCalls p yielding).blocks.map Block.label).Nodup := by
    have := Block.map_label_map
      (f := fun b => { b with commands := b.commands.flatMap (p.assumeAfter yielding i.vars) })
      (fun _ => rfl) i.blocks
    exact this ▸ hn
  have hh : (i.assumeAfterCalls p yielding).flow.loopHeaders.Nodup := List.nodup_eraseDups _
  have hf := Block.foldl_modifyFirst hl hh
    (f := fun h b => { b with
      commands := p.assumeDisjoint (copies.headSite i.name h) i.vars ++ b.commands })
    (fun _ _ => rfl)
  simp only [withDisjointness, foldl_assumeAtHead]
  refine hf.trans ?_
  refine (List.map_map).trans ?_
  apply List.map_congr_left
  intro b _
  simp only [Function.comp_apply, assumedCommands, headAssumptions]
  split <;> rfl

variable {i}

theorem mem_blocks_withDisjointness (hn : i.labels.Nodup) {b : Block} :
    b ∈ (i.withDisjointness p copies yielding).blocks ↔
      ∃ c ∈ i.blocks, { c with commands := i.assumedCommands p copies yielding c } = b := by
  rw [blocks_withDisjointness i p copies yielding hn, List.mem_map]

end Implementation

end LayerCheck
