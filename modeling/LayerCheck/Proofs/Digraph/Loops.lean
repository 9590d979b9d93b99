import LayerCheck.Proofs.Digraph.Dominance
import LayerCheck.Proofs.Digraph.NaturalLoop

/-!
# Loops of a graph

An edge that leads to a dominator of its source closes a loop, and all other edges lead forward.
The loop of such an edge is what leads to its source without passing through its target.  All this
only speaks of the edges and the root, so it is defined for any relation; the flow graph computes it
for its nodes.

* `BackEdge`, `Forward`, `InLoop`: the notions.
* `inLoop_iff_exists_trail`, `InLoop.dominates`: the members of a loop and the paths to them.
* `Digraph.mem_backEdges_iff`, `Digraph.mem_loopHeaders_iff`, `Digraph.mem_naturalLoop_iff`: what
  is computed.
-/

namespace LayerCheck

section

variable {α : Type}

/-- An edge between reachable nodes whose target dominates its source. -/
def BackEdge (E : α → α → Prop) (r s h : α) : Prop :=
  Relation.ReflTransGen E r s ∧ E s h ∧ Dominates E r h s

/-- Any other edge between reachable nodes. -/
def Forward (E : α → α → Prop) (r s t : α) : Prop :=
  Relation.ReflTransGen E r s ∧ E s t ∧ ¬ Dominates E r t s

/-- There is a path between the two that does not touch `h`. -/
def Around (E : α → α → Prop) (h : α) : α → α → Prop :=
  Relation.ReflTransGen fun u v => E u v ∧ u ≠ h ∧ v ≠ h

/-- The natural loop of an edge from `s` to `h`: its header with all that leads to the source
without touching the header. -/
def InLoop (E : α → α → Prop) (h s v : α) : Prop := v = h ∨ Around E h v s

/-- A path that comes to a node once goes on from it without touching it again. -/
theorem Trail.exists_around {E : α → α → Prop} {r a b : α} {π : List α} (h : Trail E r (b :: π))
    (hn : (b :: π).Nodup) (ha : a ∈ π) : ∃ t, E a t ∧ t ≠ a ∧ Around E a t b := by
  generalize hσ : b :: π = σ at h
  induction h generalizing b π with
  | start =>
    obtain rfl := (List.cons.inj hσ).2
    cases ha
  | step h he ih =>
    obtain ⟨rfl, rfl⟩ := List.cons.inj hσ
    rw [List.nodup_cons] at hn
    have hb : b ≠ a := fun e => hn.1 (e ▸ ha)
    rcases List.mem_cons.mp ha with rfl | ha
    · exact ⟨b, he, hb, .refl⟩
    · obtain ⟨t, hat, hta, hr⟩ := ih hn.2 ha rfl
      exact ⟨t, hat, hta, hr.tail ⟨he, fun e => (List.nodup_cons.mp hn.2).1 (e ▸ ha), hb⟩⟩

/-! ## Members of a loop -/

section Members

variable {E : α → α → Prop} {r a h s v : α}

/-- A loop holds its header and whatever a path leads from to the source that does not pass through
the header. -/
theorem inLoop_iff_exists_trail :
    InLoop E h s v ↔ v = h ∨ ∃ π, Trail E v (s :: π) ∧ h ∉ s :: π := by
  constructor
  · intro hv
    refine or_iff_not_imp_left.mpr fun hne => ?_
    have ha : Around E h v s := hv.resolve_left hne
    obtain ⟨π, hπ, hall⟩ := (Trail.start (E := E) (r := v)).extend (P := (· ≠ h))
      (Relation.ReflTransGen.mono (fun a b he => ⟨he.1, he.2.2⟩) v s ha)
    refine ⟨π, hπ, fun hh => ?_⟩
    rcases hall h hh with hm | hm
    · exact hne (List.mem_singleton.mp hm).symm
    · exact hm rfl
  · rintro (hv | ⟨π, hπ, hh⟩)
    · exact .inl hv
    · refine .inr ?_
      generalize hσ : s :: π = σ at hπ hh
      induction hπ generalizing s π with
      | start =>
        rw [(List.cons.inj hσ).1]
        exact .refl
      | @step u w τ hτ he ih =>
        rw [(List.cons.inj hσ).1]
        obtain ⟨hw, hu⟩ := List.ne_and_not_mem_of_not_mem_cons hh
        exact (ih τ rfl hu).tail ⟨he, fun e => hu (e ▸ List.mem_cons_self), hw.symm⟩

/-- Whatever leads into a loop other than to its header belongs to it. -/
theorem InLoop.of_edge (hv : InLoop E h s v) (hne : v ≠ h) (he : E a v) : InLoop E h s a := by
  by_cases hah : a = h
  · exact .inl hah
  · exact .inr (.head ⟨he, hah, hne⟩ (hv.resolve_left hne))

/-- **A header that dominates the source of its loop dominates the whole loop.** -/
theorem InLoop.dominates (hd : Dominates E r h s) (hv : InLoop E h s v) : Dominates E r h v := by
  intro π hπ
  rcases hv with rfl | ha
  · exact List.mem_cons_self
  · obtain ⟨ρ, hρ, hall⟩ := hπ.extend (P := (· ≠ h))
      (Relation.ReflTransGen.mono (fun a b he => ⟨he.1, he.2.2⟩) v s ha)
    exact (hall h (hd ρ hρ)).resolve_right fun hne => hne rfl

end Members

/-! ## Without what is not reachable -/

section Reachable

variable {E E' : α → α → Prop} {r a b h s v : α}

theorem trail_iff_of_reachable
    (hE : ∀ a b, E' a b ↔ E a b ∧ Relation.ReflTransGen E r a) {π : List α} :
    Trail E' r π ↔ Trail E r π := by
  constructor
  · intro h
    induction h with
    | start => exact .start
    | step _ he ih => exact ih.step ((hE _ _).mp he).1
  · intro h
    induction h with
    | start => exact .start
    | step hπ he ih => exact ih.step ((hE _ _).mpr ⟨he, hπ.reaches⟩)

theorem reaches_iff_of_reachable (hE : ∀ a b, E' a b ↔ E a b ∧ Relation.ReflTransGen E r a) :
    Relation.ReflTransGen E' r v ↔ Relation.ReflTransGen E r v := by
  constructor
  · exact Relation.ReflTransGen.mono (fun a b he => ((hE a b).mp he).1) r v
  · intro hr
    obtain ⟨π, hπ⟩ := Trail.exists_of_reaches hr
    exact ((trail_iff_of_reachable hE).mpr hπ).reaches

theorem dominates_iff_of_reachable (hE : ∀ a b, E' a b ↔ E a b ∧ Relation.ReflTransGen E r a) :
    Dominates E' r a b ↔ Dominates E r a b := by
  simp only [Dominates, trail_iff_of_reachable hE]

theorem immediateDominator_iff_of_reachable
    (hE : ∀ a b, E' a b ↔ E a b ∧ Relation.ReflTransGen E r a) :
    ImmediateDominator E' r a b ↔ ImmediateDominator E r a b := by
  have hdom : ∀ c d, Dominates E' r c d ↔ Dominates E r c d :=
    fun _ _ => dominates_iff_of_reachable hE
  constructor
  · intro h
    exact ⟨h.ne, (hdom a b).mp h.dominates,
      fun c hc hcb => (hdom c a).mp (h.closest c hc ((hdom c b).mpr hcb))⟩
  · intro h
    exact ⟨h.ne, (hdom a b).mpr h.dominates,
      fun c hc hcb => (hdom c a).mpr (h.closest c hc ((hdom c b).mp hcb))⟩

/-- The edges that leave unreachable nodes do not matter to back edges. -/
theorem backEdge_iff_of_reachable (hE : ∀ a b, E' a b ↔ E a b ∧ Relation.ReflTransGen E r a) :
    BackEdge E' r s h ↔ BackEdge E r s h := by
  simp only [BackEdge, reaches_iff_of_reachable hE, dominates_iff_of_reachable hE, hE]
  exact and_congr_right fun hr => and_congr_left fun _ => and_iff_left hr

theorem forward_iff_of_reachable (hE : ∀ a b, E' a b ↔ E a b ∧ Relation.ReflTransGen E r a) :
    Forward E' r a b ↔ Forward E r a b := by
  simp only [Forward, reaches_iff_of_reachable hE, dominates_iff_of_reachable hE, hE]
  exact and_congr_right fun hr => and_congr_left fun _ => and_iff_left hr

/-- Without them a loop has lost its unreachable members. -/
theorem inLoop_iff_of_reachable (hE : ∀ a b, E' a b ↔ E a b ∧ Relation.ReflTransGen E r a)
    (hb : BackEdge E r s h) :
    InLoop E' h s v ↔ InLoop E h s v ∧ Relation.ReflTransGen E r v := by
  constructor
  · intro hv
    rcases hv with rfl | ha
    · exact ⟨.inl rfl, hb.1.tail hb.2.1⟩
    · refine ⟨.inr (Relation.ReflTransGen.mono ?_ v s ha), ?_⟩
      · exact fun a b he => ⟨((hE a b).mp he.1).1, he.2⟩
      · rcases Relation.ReflTransGen.cases_head ha with rfl | ⟨w, he, -⟩
        · exact hb.1
        · exact ((hE v w).mp he.1).2
  · intro hx
    obtain ⟨rfl | ha, hr⟩ := hx
    · exact .inl rfl
    · refine .inr ?_
      induction ha using Relation.ReflTransGen.head_induction_on with
      | refl => exact .refl
      | head he _ ih => exact .head ⟨(hE _ _).mpr ⟨he.1, hr⟩, he.2⟩ (ih (hr.tail he.1))

end Reachable

end

namespace Digraph

variable {n : Nat} {g : Digraph n} {h r s u v w : Fin n} {outside members queue : List (Fin n)}

/-! ## Natural loops -/

/-- What gathering the loop of an edge from `s` to `h` finds is part of that loop, and what waits in
the queue is not the header. -/
structure Found (g : Digraph n) (h s : Fin n) (outside members queue : List (Fin n)) : Prop where
  outside : h ∉ outside
  members : ∀ v ∈ members, InLoop g.Edge h s v
  queue : ∀ v ∈ queue, v ≠ h ∧ Around g.Edge h v s

theorem Found.step {found : List (Fin n)} (hf : ∀ u, u ∈ found ↔ u ∈ g.pred v ∧ u ∈ outside)
    (hg : g.Found h s outside members (v :: queue)) :
    g.Found h s (outside.removeAll found) (members ++ found) (queue ++ found) := by
  obtain ⟨hvh, hv⟩ := hg.queue v List.mem_cons_self
  have hnew : ∀ u ∈ found, u ≠ h ∧ Around g.Edge h u s := by
    intro u hu
    obtain ⟨hp, ho⟩ := (hf u).mp hu
    have hne : u ≠ h := fun he => hg.outside (he ▸ ho)
    exact ⟨hne, .head ⟨mem_pred.mp hp, hne, hvh⟩ hv⟩
  constructor
  case outside => exact fun hm => hg.outside (List.mem_of_mem_filter hm)
  case members =>
    intro u hu
    rcases List.mem_append.mp hu with hu | hu
    · exact hg.members u hu
    · exact .inr (hnew u hu).2
  case queue =>
    intro u hu
    rcases List.mem_append.mp hu with hu | hu
    · exact hg.queue u (List.mem_cons_of_mem v hu)
    · exact hnew u hu

theorem inLoop_of_mem_gather (hg : g.Found h s outside members queue)
    (hv : v ∈ g.gather outside members queue) : InLoop g.Edge h s v := by
  fun_induction gather g outside members queue with
  | case1 outside members => exact hg.members v hv
  | case2 outside members u queue found ih =>
    have hf : ∀ w, w ∈ found ↔ w ∈ g.pred u ∧ w ∈ outside := fun w => by simp [found]
    exact ih (hg.step hf) hv

theorem subset_gather : members ⊆ g.gather outside members queue := by
  fun_induction gather g outside members queue with
  | case1 outside members => exact List.Subset.refl _
  | case2 outside members u queue found =>
    rename_i ih
    exact List.Subset.trans (List.subset_append_left _ _) ih

theorem header_mem_naturalLoop (g : Digraph n) (h s : Fin n) : h ∈ g.naturalLoop h s := by
  rw [naturalLoop]
  split
  · exact List.mem_singleton_self h
  · exact subset_gather List.mem_cons_self

theorem source_mem_naturalLoop (g : Digraph n) (h s : Fin n) : s ∈ g.naturalLoop h s := by
  rw [naturalLoop]
  split
  · rename_i hs
    exact List.mem_singleton.mpr hs
  · exact subset_gather (List.mem_cons_of_mem h List.mem_cons_self)

/-- **A natural loop holds its header and what leads to its source around the header.** -/
theorem mem_naturalLoop_iff : v ∈ g.naturalLoop h s ↔ InLoop g.Edge h s v := by
  constructor
  · intro hv
    rw [naturalLoop] at hv
    by_cases hs : s = h
    · rw [if_pos hs, List.mem_singleton] at hv
      exact .inl hv
    · rw [if_neg hs] at hv
      refine inLoop_of_mem_gather ⟨by simp, fun u hu => ?_, fun u hu => ?_⟩ hv
      · rcases List.mem_cons.mp hu with rfl | hu
        · exact .inl rfl
        · rw [List.mem_singleton.mp hu]
          exact .inr .refl
      · rw [List.mem_singleton.mp hu]
        exact ⟨hs, .refl⟩
  · intro hv
    rcases hv with rfl | hv
    · exact header_mem_naturalLoop g v s
    · induction hv using Relation.ReflTransGen.head_induction_on with
      | refl => exact source_mem_naturalLoop g h s
      | head he _ ih => exact mem_naturalLoop_of_pred ih he.2.2 (mem_pred.mpr he.1)

/-! ## Back edges -/

/-- **The back edges are the edges of reachable nodes to their dominators.** -/
theorem mem_backEdges_iff (hr : entry? n = some r) :
    (s, h) ∈ g.backEdges g.dominance ↔ BackEdge g.Edge r s h := by
  have hl := Digraph.listed_revPostOrder (g := g) hr
  have hmem : ∀ v, v ∈ g.dominance.order.toList ↔ g.Reaches r v := fun v => hl.mem_iff v
  simp only [backEdges, List.mem_flatMap, List.mem_map, List.mem_filter, hmem, Prod.mk.injEq]
  constructor
  · intro hx
    obtain ⟨u, hu, v, ⟨hv, hd⟩, rfl, rfl⟩ := hx
    exact ⟨hu, hv, (dominates_dominance_iff hr hu).mp hd⟩
  · intro hb
    exact ⟨s, hb.1, h, ⟨hb.2.1, (dominates_dominance_iff hr hb.1).mpr hb.2.2⟩, rfl, rfl⟩

/-- **The loop headers are the targets of back edges.** -/
theorem mem_loopHeaders_iff (hr : entry? n = some r) :
    h ∈ g.loopHeaders g.dominance ↔ ∃ s, BackEdge g.Edge r s h := by
  have hl := Digraph.listed_revPostOrder (g := g) hr
  have hmem : ∀ v, v ∈ g.dominance.order.toList ↔ g.Reaches r v := fun v => hl.mem_iff v
  simp only [loopHeaders, List.mem_filter, hmem, List.contains_iff_mem, List.mem_map]
  constructor
  · intro hx
    obtain ⟨-, ⟨s, _⟩, he, rfl⟩ := hx
    exact ⟨s, (mem_backEdges_iff hr).mp he⟩
  · intro hx
    obtain ⟨s, hb⟩ := hx
    exact ⟨hb.1.tail hb.2.1, (s, h), (mem_backEdges_iff hr).mpr hb, rfl⟩

end Digraph

end LayerCheck
