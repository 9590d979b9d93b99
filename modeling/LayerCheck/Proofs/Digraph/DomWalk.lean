import LayerCheck.Proofs.Digraph.DomTree
import Mathlib.Data.List.Nodup

/-!
# Spans in the tree of dominators

A walk through a tree comes to everything that is below a position after the position itself, and
leaves it before.  So the span of one position lies in that of another exactly if it is below the
other; the spans of positions that do not stand in a row are apart.

* `DomMap.Walked`: what a walk through a part of the tree does.
* `DomMap.walked_walk`: the walk below a position does it for all that is below the position.
* `DomMap.spans_iff_above`: spans tell the order of the tree.
-/

namespace LayerCheck

/-- The span of a position that is done. -/
def DomWalk.span? (s : DomWalk) (i : Nat) : Option (Nat × Nat) := s.spans.getD i none

namespace DomMap

variable {m : DomMap} {P Q : Nat → Prop} {s t u : DomWalk} {i j k c : Nat} {cs : List Nat}

/-! ## Children -/

theorem mem_children_iff : c ∈ m.children i ↔ m.parent? c = some i := by
  rw [children, List.mem_filter, List.mem_range, decide_eq_true_iff]
  refine and_iff_right_of_imp fun hp => ?_
  have hk : m.Known c := by
    rw [Known, (parent?_eq_some_iff.mp hp).1]
    rfl
  exact hk.lt_size

theorem nodup_children (m : DomMap) (i : Nat) : (m.children i).Nodup :=
  List.nodup_range.filter _

/-- What is below a position is the position, or is below one of its children. -/
theorem above_iff_children : m.Above i j ↔ j = i ∨ ∃ c ∈ m.children i, m.Above c j := by
  rw [Above, Relation.ReflTransGen.cases_head_iff, eq_comm]
  simp only [mem_children_iff]

/-- Nothing is below two children. -/
theorem eq_of_above_children (hc : c ∈ m.children i) (hk : k ∈ m.children i) (hcj : m.Above c j)
    (hkj : m.Above k j) : c = k := by
  -- of two children that stand in a row, the later one would have the other as its parent
  have hrow : ∀ {a b}, a ∈ m.children i → b ∈ m.children i → m.Above a b → a = b := by
    intro a b ha hb hab
    rcases above_iff.mp hab with rfl | ⟨p, hap, hp⟩
    · rfl
    · rw [mem_children_iff.mp hb, Option.some_inj] at hp
      have := (lt_of_mem_children ha).1
      have := hap.le
      omega
  by_cases hle : c ≤ k
  · exact hrow hc hk (hkj.of_le hcj hle)
  · exact (hrow hk hc (hcj.of_le hkj (by omega))).symm

/-! ## Parts of a walk -/

/-- The walk has given spans to the positions in `P`, later than it has begun and before it has
ended, and they nest as the positions stand. -/
structure Walked (m : DomMap) (P : Nat → Prop) (s t : DomWalk) : Prop where
  clock_le : s.clock ≤ t.clock
  size_eq : t.spans.size = s.spans.size
  inside : ∀ j, P j → ∃ a, t.span? j = some a ∧ s.clock ≤ a.1 ∧ a.1 < a.2 ∧ a.2 < t.clock
  outside : ∀ j, ¬ P j → t.span? j = s.span? j
  nested : ∀ j k a b, P j → P k → t.span? j = some a → t.span? k = some b →
    (a.1 ≤ b.1 ∧ b.2 ≤ a.2 ↔ m.Above j k)

/-- A part of the tree after another one, if nothing in one stands above anything in the other. -/
theorem Walked.trans (hst : Walked m P s t) (htu : Walked m Q t u)
    (hd : ∀ j k, P j → Q k → ¬ m.Above j k ∧ ¬ m.Above k j) :
    Walked m (fun j => P j ∨ Q j) s u := by
  have hPQ : ∀ {j}, P j → ¬ Q j := fun hp hq => (hd _ _ hp hq).1 (above_self m _)
  have hst' := hst.clock_le
  have htu' := htu.clock_le
  -- the spans of the first part stay, and end before the second part begins
  have hfirst : ∀ {j}, P j → ∀ {a}, u.span? j = some a →
      t.span? j = some a ∧ a.1 < a.2 ∧ a.2 < t.clock := by
    intro j hp a ha
    rw [htu.outside j (hPQ hp)] at ha
    obtain ⟨a', ha', -, hlt, hend⟩ := hst.inside j hp
    rw [ha', Option.some_inj] at ha
    exact ha ▸ ⟨ha', hlt, hend⟩
  have hsecond : ∀ {j}, Q j → ∀ {a}, u.span? j = some a → t.clock ≤ a.1 ∧ a.1 < a.2 := by
    intro j hq a ha
    obtain ⟨a', ha', hstart, hlt, -⟩ := htu.inside j hq
    rw [ha', Option.some_inj] at ha
    exact ha ▸ ⟨hstart, hlt⟩
  constructor
  case clock_le => exact Nat.le_trans hst' htu'
  case size_eq => exact htu.size_eq.trans hst.size_eq
  case inside =>
    intro j hj
    rcases hj with hp | hq
    · obtain ⟨a, ha, hstart, hlt, hend⟩ := hst.inside j hp
      exact ⟨a, (htu.outside j (hPQ hp)).trans ha, hstart, hlt, by omega⟩
    · obtain ⟨a, ha, hstart, hlt, hend⟩ := htu.inside j hq
      exact ⟨a, ha, by omega, hlt, hend⟩
  case outside =>
    intro j hj
    rw [not_or] at hj
    rw [htu.outside j hj.2, hst.outside j hj.1]
  case nested =>
    intro j k a b hj hk ha hb
    rcases hj with hj | hj
    · obtain ⟨ha', -, hend⟩ := hfirst hj ha
      rcases hk with hk | hk
      · exact hst.nested j k a b hj hk ha' (hfirst hk hb).1
      · obtain ⟨hstart, hlt⟩ := hsecond hk hb
        exact iff_of_false (by omega) (hd j k hj hk).1
    · obtain ⟨hstart, hlt⟩ := hsecond hj ha
      rcases hk with hk | hk
      · obtain ⟨-, hlt', hend⟩ := hfirst hk hb
        exact iff_of_false (by omega) (hd k j hk hj).2
      · exact htu.nested j k a b hj hk ha hb

/-- The walks below several children, one after the other. -/
theorem walked_foldl (hcs : cs ⊆ m.children i) (hn : cs.Nodup)
    (hwalk : ∀ c ∈ cs, ∀ s : DomWalk, s.spans.size = m.size →
      Walked m (fun j => m.Above c j) s (m.walk c s)) (hs : s.spans.size = m.size) :
    Walked m (fun j => ∃ c ∈ cs, m.Above c j) s (cs.foldl (fun s c => m.walk c s) s) := by
  induction cs generalizing s with
  | nil =>
    refine ⟨Nat.le_refl _, rfl, fun j hj => ?_, fun j _ => rfl, fun j k a b hj => ?_⟩
    · simp at hj
    · simp at hj
  | cons c cs ih =>
    rw [List.nodup_cons] at hn
    rw [List.forall_mem_cons] at hwalk
    have hfirst := hwalk.1 s hs
    have hrest := ih (fun x hx => hcs (List.mem_cons_of_mem c hx)) hn.2 hwalk.2
      (hfirst.size_eq.trans hs)
    have happart := hfirst.trans hrest ?_
    · simp only [List.exists_mem_cons_iff]
      exact happart
    · intro j k hj hk
      obtain ⟨d, hd, hdk⟩ := hk
      have hne : c ≠ d := fun h => hn.1 (h ▸ hd)
      have hc := hcs List.mem_cons_self
      have hd := hcs (List.mem_cons_of_mem c hd)
      constructor
      · exact fun hjk => hne (eq_of_above_children hc hd (hj.trans hjk) hdk)
      · exact fun hkj => hne (eq_of_above_children hc hd hj (hdk.trans hkj))

/-! ## The walk -/

theorem walk_eq (m : DomMap) (i : Nat) (s : DomWalk) :
    m.walk i s =
      let below := (m.children i).foldl (fun s c => m.walk c s) { s with clock := s.clock + 1 }
      { clock := below.clock + 1
        spans := below.spans.setIfInBounds i (some (s.clock, below.clock)) } := by
  rw [walk]
  simp only [List.foldl_attach (f := fun s c => m.walk c s)]

/-- A position is entered before what is below its children, and left after it. -/
theorem walked_around (hi : i < m.size) (hs : s.spans.size = m.size)
    (hbelow : Walked m (fun j => ∃ c ∈ m.children i, m.Above c j)
      { s with clock := s.clock + 1 } t) :
    Walked m (fun j => m.Above i j) s
      { clock := t.clock + 1, spans := t.spans.setIfInBounds i (some (s.clock, t.clock)) } := by
  have hclock : s.clock + 1 ≤ t.clock := hbelow.clock_le
  have hsize : t.spans.size = s.spans.size := hbelow.size_eq
  have hspan : ∀ j, DomWalk.span? { clock := t.clock + 1
                                    spans := t.spans.setIfInBounds i (some (s.clock, t.clock)) }
      j = if j = i then some (s.clock, t.clock) else t.span? j :=
    getD_set (by omega) _
  have hchild : ∀ {j}, m.Above i j → j ≠ i → ∃ c ∈ m.children i, m.Above c j :=
    fun hj hne => (above_iff_children.mp hj).resolve_left hne
  constructor
  case clock_le => exact Nat.le_trans (Nat.le_succ _) (Nat.le_trans hclock (Nat.le_succ _))
  case size_eq => exact (Array.size_setIfInBounds ..).trans hsize
  case inside =>
    intro j hj
    rw [hspan]
    by_cases hji : j = i
    · rw [if_pos hji]
      exact ⟨_, rfl, Nat.le_refl _, hclock, Nat.lt_succ_self _⟩
    · rw [if_neg hji]
      obtain ⟨a, ha, hstart, hlt, hend⟩ := hbelow.inside j (hchild hj hji)
      exact ⟨a, ha, Nat.le_of_succ_le hstart, hlt, Nat.lt_succ_of_lt hend⟩
  case outside =>
    intro j hj
    rw [above_iff_children, not_or] at hj
    rw [hspan, if_neg hj.1]
    exact hbelow.outside j hj.2
  case nested =>
    intro j k a b hj hk ha hb
    rw [hspan] at ha hb
    by_cases hji : j = i
    · rw [if_pos hji, Option.some_inj] at ha
      subst ha hji
      refine iff_of_true ?_ hk
      by_cases hkj : k = j
      · rw [if_pos hkj, Option.some_inj] at hb
        subst hb
        exact ⟨Nat.le_refl _, Nat.le_refl _⟩
      · rw [if_neg hkj] at hb
        obtain ⟨b', hb', hstart, -, hend⟩ := hbelow.inside k (hchild hk hkj)
        rw [hb, Option.some_inj] at hb'
        exact hb' ▸ ⟨Nat.le_of_succ_le hstart, Nat.le_of_lt hend⟩
    · rw [if_neg hji] at ha
      by_cases hki : k = i
      · -- the position itself is entered first
        rw [if_pos hki, Option.some_inj] at hb
        subst hb
        obtain ⟨a', ha', hstart, -, -⟩ := hbelow.inside j (hchild hj hji)
        rw [ha, Option.some_inj] at ha'
        subst ha'
        refine iff_of_false (fun h => ?_) (fun h => hji ((h.antisymm (hki ▸ hj)).trans hki))
        exact absurd (Nat.le_trans hstart h.1) (Nat.not_succ_le_self _)
      · rw [if_neg hki] at hb
        exact hbelow.nested j k a b (hchild hj hji) (hchild hk hki) ha hb

/-- **The walk below a position gives spans to all that is below it.** -/
theorem walked_walk (hi : i < m.size) (hs : s.spans.size = m.size) :
    Walked m (fun j => m.Above i j) s (m.walk i s) := by
  induction hk : m.size - i using Nat.strongRecOn generalizing i s with
  | ind n ih =>
    rw [walk_eq]
    refine walked_around hi hs (walked_foldl (List.Subset.refl _) (nodup_children m i) ?_ hs)
    intro c hc s hs
    obtain ⟨hlt, hsize⟩ := lt_of_mem_children hc
    exact ih (m.size - c) (by omega) hsize hs rfl

/-- **The spans of positions below the entry nest as the positions stand in the tree.** -/
theorem spans_iff_above (hroot : ∀ j < m.size, m.Above 0 j) (hj : j < m.size) (hk : k < m.size) :
    ∃ a b, m.spans.getD j none = some a ∧ m.spans.getD k none = some b ∧
      (a.1 ≤ b.1 ∧ b.2 ≤ a.2 ↔ m.Above j k) := by
  have hwalk := walked_walk (m := m) (i := 0)
    (s := { spans := Array.replicate m.size none }) (by omega) (Array.size_replicate ..)
  obtain ⟨a, ha, -⟩ := hwalk.inside j (hroot j hj)
  obtain ⟨b, hb, -⟩ := hwalk.inside k (hroot k hk)
  exact ⟨a, b, ha, hb, hwalk.nested j k a b (hroot j hj) (hroot k hk) ha hb⟩

end DomMap

end LayerCheck
