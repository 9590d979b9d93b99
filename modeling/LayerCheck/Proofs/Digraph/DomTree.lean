import LayerCheck.Digraph.Dominance
import Mathlib.Logic.Relation
import Mathlib.Tactic.ByContra

/-!
# The tree of dominators found so far

The rounds that look for dominators keep, for every position, an earlier one as its parent.  So the
positions that have been looked at form a tree below the entry.  `DomMap.Above` is the order of that
tree, and everything that a round does is said by it:

* `DomMap.above_meet_iff`: climbing to the first common position leaves what is above both.
* `DomMap.above_candidate?_iff`: the new parent of a position has above it what is above all
  predecessors that have been looked at.
* `DomMap.above_set_iff`: a new parent changes what is above a position and all below it.
-/

namespace LayerCheck.DomMap

variable {m : DomMap} {i j k d p : Nat} {ps : List Nat}

/-- The position has a dominator so far; the entry has itself. -/
def Known (m : DomMap) (i : Nat) : Prop := (m.dom? i).isSome = true

/-- The first position is the other one, or is met on the way from it to the root. -/
def Above (m : DomMap) : Nat → Nat → Prop :=
  Relation.ReflTransGen fun p i => m.parent? i = some p

theorem parent?_eq_some_iff : m.parent? i = some p ↔ m.dom? i = some p ∧ p < i := by
  simp [parent?, Option.filter_eq_some_iff]

/-! ## The order of the tree -/

theorem above_iff : m.Above k i ↔ k = i ∨ ∃ p, m.Above k p ∧ m.parent? i = some p := by
  rw [Above, Relation.ReflTransGen.cases_tail_iff, eq_comm]

theorem above_self (m : DomMap) (i : Nat) : m.Above i i := .refl

theorem Above.le (h : m.Above k i) : k ≤ i := by
  induction h with
  | refl => exact Nat.le_refl k
  | tail _ hp ih =>
    have := parent?_lt hp
    omega

theorem Above.antisymm (h : m.Above k i) (h' : m.Above i k) : k = i :=
  Nat.le_antisymm h.le h'.le

/-- What is above a position stands in a row. -/
theorem Above.of_le (hk : m.Above k i) (hj : m.Above j i) (hle : j ≤ k) : m.Above j k := by
  induction hk with
  | refl => exact hj
  | @tail p i hk hp ih =>
    have hki := Above.le hk
    have hpi := parent?_lt hp
    rcases above_iff.mp hj with rfl | ⟨p', hj, hp'⟩
    · omega
    · rw [hp, Option.some_inj] at hp'
      exact ih (hp' ▸ hj)

/-- What is above a position that has a parent, but for the position itself, is above the parent. -/
theorem above_parent_iff (hp : m.parent? i = some p) : m.Above k p ↔ m.Above k i ∧ k ≠ i := by
  have hlt := parent?_lt hp
  constructor
  · intro h
    have := h.le
    exact ⟨h.tail hp, by omega⟩
  · intro h
    rcases above_iff.mp h.1 with hk | ⟨p', hk, hp'⟩
    · exact absurd hk h.2
    · rw [hp, Option.some_inj] at hp'
      rw [hp']
      exact hk

/-! ## Climbing to a common position -/

/-- **Two positions below the root meet below all that is above both.** -/
theorem above_meet_iff (hi : m.Above 0 i) (hj : m.Above 0 j) :
    m.Above k (m.meet i j) ↔ m.Above k i ∧ m.Above k j := by
  -- the later of two positions is not above the other, so nothing is lost by leaving it
  have hleave : ∀ {a b p : Nat}, b < a → m.parent? a = some p →
      (m.Above k p ∧ m.Above k b ↔ m.Above k a ∧ m.Above k b) := by
    intro a b p hlt hp
    rw [above_parent_iff hp]
    constructor
    · exact fun h => ⟨h.1.1, h.2⟩
    · intro h
      have := h.2.le
      exact ⟨⟨h.1, by omega⟩, h.2⟩
  have hroot : ∀ {a p : Nat}, 0 < a → m.Above 0 a → m.parent? a = some p → m.Above 0 p := by
    intro a p ha h hp
    exact (above_parent_iff hp).mpr ⟨h, by omega⟩
  have hnone : ∀ {a : Nat}, 0 < a → m.Above 0 a → m.parent? a ≠ none := by
    intro a ha h hn
    rcases above_iff.mp h with rfl | ⟨p, -, hp⟩
    · omega
    · rw [hn] at hp
      cases hp
  fun_induction meet m i j with
  | case1 i => exact (and_self_iff).symm
  | case2 i j hne hlt p hp ih =>
    have hp0 : m.Above 0 p := hroot (by omega) hi hp
    exact (ih hp0 hj).trans (hleave hlt hp)
  | case3 i j hne hlt hp => exact absurd hp (hnone (by omega) hi)
  | case4 i j hne hlt p hp ih =>
    have hp0 : m.Above 0 p := hroot (by omega) hj hp
    have hij : i < j := by omega
    exact (ih hi hp0).trans (and_comm.trans ((hleave hij hp).trans and_comm))
  | case5 i j hne hlt hp => exact absurd hp (hnone (by omega) hj)

theorem isSome_candidate?_iff : (m.candidate? ps).isSome = true ↔ ∃ p ∈ ps, m.Known p := by
  rw [candidate?]
  split
  · rename_i h
    rw [List.filter_eq_nil_iff] at h
    simp only [Option.isSome_none, Bool.false_eq_true, false_iff, not_exists, not_and]
    exact h
  · rename_i p qs h
    have hp : p ∈ ps.filter fun p => (m.dom? p).isSome := h ▸ List.mem_cons_self
    rw [List.mem_filter] at hp
    exact ⟨fun _ => ⟨p, hp⟩, fun _ => rfl⟩

/-- **The candidate has above it what is above all predecessors that have been looked at.** -/
theorem above_candidate?_iff (hroot : ∀ p ∈ ps, m.Known p → m.Above 0 p)
    (h : m.candidate? ps = some d) : m.Above k d ↔ ∀ p ∈ ps, m.Known p → m.Above k p := by
  have hfold : ∀ (qs : List Nat) (q : Nat), m.Above 0 q → (∀ p ∈ qs, m.Above 0 p) →
      ∀ k, m.Above k (qs.foldl (fun d q => m.meet q d) q) ↔
        m.Above k q ∧ ∀ p ∈ qs, m.Above k p := by
    intro qs
    induction qs with
    | nil => simp
    | cons p qs ih =>
      intro q hq hqs k
      rw [List.forall_mem_cons] at hqs
      rw [List.foldl_cons, ih _ ((above_meet_iff hqs.1 hq).mpr ⟨hqs.1, hq⟩) hqs.2,
        above_meet_iff hqs.1 hq, List.forall_mem_cons]
      exact ⟨fun h => ⟨h.1.2, h.1.1, h.2⟩, fun h => ⟨⟨h.2.1, h.1⟩, h.2.2⟩⟩
  have hmem : ∀ p, p ∈ (ps.filter fun p => (m.dom? p).isSome) ↔ p ∈ ps ∧ m.Known p :=
    fun p => List.mem_filter
  rw [candidate?] at h
  split at h
  · cases h
  · rename_i q qs hqs
    rw [hqs] at hmem
    have hall : ∀ p ∈ q :: qs, m.Above 0 p := by
      intro p hp
      obtain ⟨hp, hk⟩ := (hmem p).mp hp
      exact hroot p hp hk
    rw [← Option.some_inj.mp h, hfold qs q (hall q List.mem_cons_self)
      (fun p hp => hall p (List.mem_cons_of_mem q hp)), ← List.forall_mem_cons]
    exact ⟨fun h p hp hk => h p ((hmem p).mpr ⟨hp, hk⟩),
      fun h p hp => h p ((hmem p).mp hp).1 ((hmem p).mp hp).2⟩

/-! ## A new parent -/

theorem getD_set {α : Type} {s : Array (Option α)} (hi : i < s.size) (x : Option α) (j : Nat) :
    (s.setIfInBounds i x).getD j none = if j = i then x else s.getD j none := by
  rw [Array.getD_eq_getD_getElem?, Array.getD_eq_getD_getElem?, Array.getElem?_setIfInBounds]
  by_cases hj : j = i
  · subst hj
    simp [hi]
  · rw [if_neg (Ne.symm hj), if_neg hj]

theorem dom?_set (hi : i < m.size) (d j : Nat) :
    DomMap.dom? (m.setIfInBounds i (some d)) j = if j = i then some d else m.dom? j :=
  getD_set hi (some d) j

theorem dom?_of_size_le (hi : m.size ≤ i) : m.dom? i = none := by
  rw [dom?, Array.getD_eq_getD_getElem?, Array.getElem?_eq_none hi]
  rfl

theorem Known.lt_size (h : m.Known i) : i < m.size := by
  by_contra hn
  rw [Known, dom?_of_size_le (by omega)] at h
  cases h

theorem Known.set (h : m.Known j) (hi : i < m.size) (d : Nat) :
    DomMap.Known (m.setIfInBounds i (some d)) j := by
  rw [Known, dom?_set hi]
  split
  · rfl
  · exact h

/-- **A new parent changes what is above a position, and with it what is above all below it.** -/
theorem above_set_iff (hi : i < m.size) (hd : d < i) :
    DomMap.Above (m.setIfInBounds i (some d)) k j ↔
      m.Above k j ∧ (m.Above i j → i ≤ k) ∨ m.Above i j ∧ m.Above k d := by
  induction j using Nat.strongRecOn with
  | ind j ih =>
    by_cases hj : j = i
    · subst hj
      have hp : DomMap.parent? (m.setIfInBounds j (some d)) j = some d := by
        rw [parent?_eq_some_iff, dom?_set hi, if_pos rfl]
        exact ⟨rfl, hd⟩
      have hjd : ¬ m.Above j d := fun h => absurd h.le (by omega)
      rw [above_iff]
      simp only [hp, Option.some_inj, exists_eq_right', ih d hd, hjd, false_imp_iff, and_true,
        false_and, or_false]
      constructor
      · intro h
        rcases h with rfl | h
        · exact .inl ⟨above_self m k, fun _ => Nat.le_refl k⟩
        · exact .inr ⟨above_self m j, h⟩
      · intro h
        rcases h with ⟨hk, hle⟩ | ⟨-, h⟩
        · exact .inl (Nat.le_antisymm hk.le (hle (above_self m j)))
        · exact .inr h
    · have hp : DomMap.parent? (m.setIfInBounds i (some d)) j = m.parent? j := by
        rw [parent?, parent?, dom?_set hi, if_neg hj]
      rw [above_iff, hp]
      cases hm : m.parent? j with
      | none =>
        have hself : ∀ {k}, m.Above k j ↔ k = j := by
          intro k
          rw [above_iff, hm]
          simp
        rw [hself, hself]
        have hne : i ≠ j := Ne.symm hj
        simp [hne]
      | some p =>
        have hlt := parent?_lt hm
        have hup : ∀ {k}, m.Above k j ↔ k = j ∨ m.Above k p := by
          intro k
          rw [above_iff, hm]
          simp
        have hij : m.Above i j ↔ m.Above i p := by
          rw [hup]
          exact or_iff_right (Ne.symm hj)
        simp only [Option.some_inj, exists_eq_right', ih p hlt, hij, hup]
        constructor
        · intro h
          rcases h with rfl | h | h
          · refine .inl ⟨.inl rfl, fun hip => ?_⟩
            have := hip.le
            omega
          · exact .inl ⟨.inr h.1, h.2⟩
          · exact .inr h
        · intro h
          rcases h with ⟨rfl | hk, hle⟩ | h
          · exact .inl rfl
          · exact .inr (.inl ⟨hk, hle⟩)
          · exact .inr (.inr h)

end LayerCheck.DomMap
