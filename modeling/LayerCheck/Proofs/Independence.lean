import LayerCheck.Proofs.Frame

/-!
# Copies are made sequential independently

What is recorded of other copies is never read for a copy: its plan and its new body depend on the
sources of its own blocks only.  So a layer can be taken apart into layers with one copy each, and it
does not matter in which order copies have been recorded.

* `Copies.AgreeOn`: two records say the same of the blocks of an implementation.
* `Setting.planCopy_congr`, `Setting.transformCopy_congr`: then it has the same plan and body.
* `Setting.exists_transform_withCopies`: a layer with some of the copies.
* `Setting.transform_independent`: taking copies apart and reordering them.
-/

namespace LayerCheck

/-! ## Records that agree -/

namespace Copies

/-- The records give the same sources to the blocks of the implementation. -/
def AgreeOn (c d : Copies) (name : String) : Prop :=
  ∀ label, c.source? ⟨name, label⟩ = d.source? ⟨name, label⟩

/-- What is recorded of one copy. -/
def only (c : Copies) (name : String) : Copies where
  implementations := c.implementations.filter (· = name)
  blocks := c.blocks.filter (·.implementation = name)

theorem agreeOn_only (c : Copies) (name : String) : (c.only name).AgreeOn c name := by
  intro label
  rw [source?, source?, only, Table.get?_filter]
  simp

variable {c d : Copies} {name : String}

theorem AgreeOn.headSite (h : c.AgreeOn d name) (label : String) :
    c.headSite name label = d.headSite name label := by
  rw [Copies.headSite, Copies.headSite, resolve, resolve, h]

theorem AgreeOn.activeLoop? (h : c.AgreeOn d name) (f : Facts) (l : Layer) (label : String) :
    c.activeLoop? f l ⟨name, label⟩ = d.activeLoop? f l ⟨name, label⟩ := by
  rw [Copies.activeLoop?, Copies.activeLoop?, yieldingLoop?, yieldingLoop?, h]

theorem AgreeOn.withDisjointness {i : Implementation} (h : c.AgreeOn d i.name) (p : Permissions)
    (yielding : List String) : i.withDisjointness p c yielding = i.withDisjointness p d yielding := by
  have hsite : ∀ label, c.headSite (i.assumeAfterCalls p yielding).name label =
      d.headSite (i.assumeAfterCalls p yielding).name label := h.headSite
  simp only [Implementation.withDisjointness, Implementation.foldl_assumeAtHead, hsite]

end Copies

/-! ## One copy under two records -/

namespace Sequential

/-- The copy under another record of copies. -/
def withCopies (q : Sequential) (c : Copies) : Sequential :=
  { q with setting := { q.setting with copies := c } }

variable {q : Sequential} {c : Copies}

section Agree

variable (h : c.AgreeOn q.setting.copies q.name)
include h

theorem base_withCopies : (q.withCopies c).base = q.base := by
  have ha : (q.withCopies c).assumed = q.assumed := Copies.AgreeOn.withDisjointness h _ _
  have hp : (q.withCopies c).preparedLabels = q.preparedLabels := rfl
  rw [base_eq, base_eq, ha, hp]

theorem loop?_withCopies (label : String) : (q.withCopies c).loop? label = q.loop? label :=
  h.activeLoop? _ _ label

theorem headers_withCopies : (q.withCopies c).headers = q.headers := by
  simp only [headers, base_withCopies h, loop?_withCopies h]

theorem inLoops_withCopies : (q.withCopies c).inLoops = q.inLoops := by
  simp only [inLoops, base_withCopies h, headers_withCopies h]

theorem openLoop_withCopies : (q.withCopies c).openLoop = q.openLoop := by
  funext b
  have hl : (q.withCopies c).loopInvariants b.label = q.loopInvariants b.label := by
    rw [loopInvariants, loopInvariants, loop?_withCopies h]
    rfl
  have hs : (q.withCopies c).setting.copies.headSite (q.withCopies c).name b.label =
      q.setting.copies.headSite q.name b.label := h.headSite b.label
  rw [openLoop, openLoop, hl, hs]
  rfl

theorem opened_withCopies : (q.withCopies c).opened = q.opened := by
  have he : (q.withCopies c).enterLoop = q.enterLoop := by
    funext g inLoops blocks header
    rw [enterLoop, enterLoop, openLoop_withCopies h]
  simp only [opened, base_withCopies h, headers_withCopies h, inLoops_withCopies h, he]

/-- **A copy becomes the same sequential program if its own blocks have the same sources.** -/
theorem implementation_withCopies : (q.withCopies c).implementation = q.implementation := by
  have ho : (q.withCopies c).others = q.others := by
    rw [others, others, opened_withCopies h, inLoops_withCopies h]
    rfl
  rw [implementation, implementation, implementationFrom, implementationFrom, blocksFrom, blocksFrom,
    ho]
  rfl

end Agree

end Sequential

namespace Setting

/-- The setting with another record of copies. -/
def withCopies (s : Setting) (c : Copies) : Setting := { s with copies := c }

variable {s : Setting} {l : Layer} {p : Program} {c : Copies}

theorem checkConcurrent_congr {i : Implementation} (h : c.AgreeOn s.copies i.name) :
    (s.withCopies c).checkConcurrent l p i = s.checkConcurrent l p i := by
  have hb : (s.withCopies c).checkBlock l p i = s.checkBlock l p i := by
    funext b
    have hl : (s.withCopies c).copies.activeLoop? (s.withCopies c).facts l ⟨i.name, b.label⟩ =
        s.copies.activeLoop? s.facts l ⟨i.name, b.label⟩ := h.activeLoop? _ _ _
    rw [checkBlock, checkBlock, hl]
    rfl
  rw [checkConcurrent, checkConcurrent, hb]
  rfl

/-- The plan of a copy depends on the sources of its own blocks only. -/
theorem planCopy_congr {name : String} (h : c.AgreeOn s.copies name)
    (origin : Origin) :
    (s.withCopies c).planCopy l p name origin = s.planCopy l p name origin := by
  rw [planCopy, planCopy]
  refine Except.bind_congr fun i hi => ?_
  have hn : i.name = name := p.implementations_keyed.name_eq (Table.require_eq_ok.mp hi)
  rw [checkConcurrent_congr (i := i) (hn ▸ h)]
  rfl

/-- So does what becomes of it. -/
theorem transformCopy_congr {plan : Plan} (h : c.AgreeOn s.copies plan.name) :
    (s.withCopies c).transformCopy l plan = s.transformCopy l plan := by
  have hd := Copies.AgreeOn.withDisjointness (i := plan.implementation) h s.permissions s.yielding
  have hi := Sequential.implementation_withCopies
    (q := { setting := s, layer := l, plan }) h
  cases hat : plan.isAtomicAt l with
  | true => rw [transformCopy_of_atomic hat, transformCopy_of_atomic hat, ← hd]; rfl
  | false => rw [transformCopy_of_concurrent hat, transformCopy_of_concurrent hat, ← hi]; rfl

/-- **A layer with some of the copies is accepted too, and they get the same bodies.** -/
theorem exists_transform_withCopies {out : Program × LayerOutput}
    (h : s.transform l p = .ok out)
    (hsub : ∀ e ∈ c.implementations.entries, e ∈ s.copies.implementations.entries)
    (hag : ∀ name ∈ c.implementations.keys, c.AgreeOn s.copies name) :
    ∃ out', (s.withCopies c).transform l p = .ok out' ∧ ∀ name ∈ c.implementations.keys,
      out'.1.implementations.get? name = out.1.implementations.get? name := by
  obtain ⟨plans, hp, rfl⟩ := transform_eq_ok.mp h
  obtain ⟨hplans, hpending⟩ := plan_eq_ok_iff.mp hp
  have hcopy : ∀ e ∈ c.implementations.entries, ∃ plan,
      (s.withCopies c).planCopy l p e.1 e.2 = .ok plan ∧ plan ∈ plans := by
    intro e he
    obtain ⟨plan, hm, hpl⟩ := hplans.exists_of_mem_left (hsub e he)
    exact ⟨plan, (planCopy_congr (hag e.1 (List.mem_map_of_mem he)) e.2).trans hpl, hm⟩
  obtain ⟨plans', hplans'⟩ := List.exists_forall₂ hcopy
  have hp' : (s.withCopies c).plan l p = .ok plans' :=
    plan_eq_ok_iff.mpr ⟨hplans'.imp fun _ _ hr => hr.1, hpending⟩
  refine ⟨_, transform_eq_ok.mpr ⟨plans', hp', rfl⟩, fun name hn => ?_⟩
  obtain ⟨e, he, rfl⟩ := List.mem_map.mp hn
  obtain ⟨plan, hm', hpl, hm⟩ := hplans'.exists_of_mem_left he
  have hname : plan.name = e.1 := p.implementations_keyed.name_eq (planCopy_eq_ok hpl).implementation
  rw [← hname, get?_transformProgram hp hm, get?_transformProgram hp' hm',
    transformCopy_congr (hname ▸ hag e.1 hn)]

/-- A copy is made sequential in the same way without the others. -/
theorem exists_transform_only {out : Program × LayerOutput}
    (h : s.transform l p = .ok out) {name : String} (hn : name ∈ s.copies.implementations.keys) :
    ∃ out' j, (s.withCopies (s.copies.only name)).transform l p = .ok out' ∧
      out.1.implementations.get? name = some j ∧ out'.1.implementations.get? name = some j := by
  have hkeys : name ∈ (s.copies.only name).implementations.keys := by
    rw [Table.mem_keys, Copies.only, Table.get?_filter]
    simpa using Table.mem_keys.mp hn
  have hag : ∀ n ∈ (s.copies.only name).implementations.keys,
      (s.copies.only name).AgreeOn s.copies n := by
    intro n hm
    obtain ⟨e, he, rfl⟩ := List.mem_map.mp hm
    rw [of_decide_eq_true (List.mem_filter.mp he).2]
    exact s.copies.agreeOn_only name
  obtain ⟨out', h', hsame⟩ := exists_transform_withCopies h
    (fun e he => List.mem_of_mem_filter he) hag
  obtain ⟨origin, ho⟩ := Table.mem_keys.mp hn
  obtain ⟨plans, hp, rfl⟩ := transform_eq_ok.mp h
  obtain ⟨plan, hm, rfl, -⟩ := exists_plan hp ho
  have hj := get?_transformProgram hp hm
  exact ⟨out', _, h', hj, (hsame _ hkeys).trans hj⟩

/-- The order in which copies have been recorded does not matter. -/
theorem exists_transform_perm {out : Program × LayerOutput}
    (h : s.transform l p = .ok out)
    (hi : c.implementations.entries.Perm s.copies.implementations.entries)
    (hb : c.blocks.entries.Perm s.copies.blocks.entries) :
    ∃ out', (s.withCopies c).transform l p = .ok out' ∧
      ∀ name, out'.1.implementations.get? name = out.1.implementations.get? name := by
  have hag : ∀ name, c.AgreeOn s.copies name := fun name label => Table.get?_eq_of_perm hb _
  obtain ⟨out', h', hsame⟩ := exists_transform_withCopies h
    (fun e he => hi.mem_iff.mp he) fun name _ => hag name
  refine ⟨out', h', fun name => ?_⟩
  by_cases hn : name ∈ c.implementations.keys
  · exact hsame name hn
  · have hn' : name ∉ s.copies.implementations.keys := fun hm =>
      hn ((hi.map Prod.fst).mem_iff.mpr hm)
    obtain ⟨plans, hp, rfl⟩ := transform_eq_ok.mp h
    obtain ⟨plans', hp', rfl⟩ := transform_eq_ok.mp h'
    rw [get?_transformProgram_of_notMem hp hn']
    exact get?_transformProgram_of_notMem hp' hn

/-- **Copies are made sequential independently.**  A layer with one of the copies alone is accepted
if the whole layer is, and gives that copy the same body; and in whatever order the copies have been
recorded, the layer is accepted and all implementations are the same. -/
theorem transform_independent {out : Program × LayerOutput}
    (h : s.transform l p = .ok out) :
    (∀ name ∈ s.copies.implementations.keys, ∃ out' j,
      (s.withCopies (s.copies.only name)).transform l p = .ok out' ∧
        out.1.implementations.get? name = some j ∧
        out'.1.implementations.get? name = some j) ∧
    ∀ c : Copies, c.implementations.entries.Perm s.copies.implementations.entries →
      c.blocks.entries.Perm s.copies.blocks.entries →
      ∃ out', (s.withCopies c).transform l p = .ok out' ∧
        ∀ name, out'.1.implementations.get? name = out.1.implementations.get? name :=
  ⟨fun _ hn => exists_transform_only h hn, fun _ hi hb => exists_transform_perm h hi hb⟩

end Setting

/-- The counter and its helper, recorded the other way round. -/
def Counter.reordered : Copies where
  implementations := .ofList [("Help_1", ⟨"Help", "Help"⟩), ("Main_1", ⟨"Main", "Main"⟩)]
  blocks := .ofList [(⟨"Help_1", "A"⟩, ⟨"Help", "A"⟩), (⟨"Main_1", "H"⟩, ⟨"Main", "H"⟩)]

/-- The counter becomes the same program without its helper, and with the helper recorded first. -/
theorem Setting.transform_independent_helped :
    Counter.helped.transform 1 Counter.helpedProgram = .ok Counter.helpedOut ∧
      (∃ out' j, (Counter.helped.withCopies (Counter.helped.copies.only "Main_1")).transform 1
          Counter.helpedProgram = .ok out' ∧
        Counter.helpedOut.1.implementations.get? "Main_1" = some j ∧
        out'.1.implementations.get? "Main_1" = some j) ∧
      ∃ out', (Counter.helped.withCopies Counter.reordered).transform 1 Counter.helpedProgram =
          .ok out' ∧
        ∀ name, out'.1.implementations.get? name =
          Counter.helpedOut.1.implementations.get? name := by
  obtain ⟨hone, hall⟩ := transform_independent Counter.transform_helped
  exact ⟨Counter.transform_helped, hone "Main_1" (by decide),
    hall Counter.reordered (.swap _ _ _) (.swap _ _ _)⟩

end LayerCheck
