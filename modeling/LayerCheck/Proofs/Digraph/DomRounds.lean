import LayerCheck.Proofs.Digraph.DomTree
import LayerCheck.Proofs.Digraph.Trail
import Mathlib.Data.List.Perm.Subperm

/-!
# The rounds that look for dominators settle on them

The parents are moved towards the root one position at a time, while other positions still have
parents from earlier rounds.  Two invariants enclose what stands above a position.

* `DomMap.Sound`: it never lacks a dominator.  A position reaches what is below it along positions
  that come later; so a dominator that comes earlier is one of that position too, and a new parent
  for it loses none of them.
* `DomMap.Near`: after `c` rounds it lies on all paths of at most `c` edges.

A path that visits no position twice has fewer edges than there are positions, so after that many
rounds exactly the dominators are left, and a further round changes nothing.

* `DomMap.iterate_round`: what holds after any number of rounds.
* `DomMap.ofPredecessors_eq`, `DomMap.exact_ofPredecessors`: the rounds come to an end, with every
  position below its dominators and nothing else.
-/

namespace LayerCheck.DomMap

variable {preds : Nat → List Nat} {size : Nat} {m : DomMap} {i j k d c n : Nat}

/-- An edge from one position to another. -/
def Leads (preds : Nat → List Nat) (p i : Nat) : Prop := p ∈ preds i

/-- The positions are numbered in an order in which every position but the first has an earlier
predecessor. -/
structure Ordered (preds : Nat → List Nat) (size : Nat) : Prop where
  pos : 0 < size
  earlier : ∀ i, 0 < i → i < size → ∃ p ∈ preds i, p < i
  inside : ∀ p i, Leads preds p i → p < size ∧ i < size

namespace Ordered

theorem exists_trail (h : Ordered preds size) (hi : i < size) :
    ∃ π, Trail (Leads preds) 0 (i :: π) := by
  induction i using Nat.strongRecOn with
  | ind i ih =>
    by_cases h0 : i = 0
    · rw [h0]
      exact ⟨[], .start⟩
    · obtain ⟨p, hp, hlt⟩ := h.earlier i (by omega) hi
      obtain ⟨π, hπ⟩ := ih p hlt (by omega)
      exact ⟨p :: π, hπ.step hp⟩

theorem lt_of_trail (h : Ordered preds size) {π : List Nat} (hπ : Trail (Leads preds) 0 π) :
    ∀ i ∈ π, i < size := by
  induction hπ with
  | start =>
    intro i hi
    rw [List.mem_singleton.mp hi]
    exact h.pos
  | step _ he ih =>
    intro i hi
    rcases List.mem_cons.mp hi with rfl | hi
    · exact (h.inside _ _ he).2
    · exact ih i hi

/-- A path without repetitions has fewer edges than there are positions. -/
theorem length_lt (h : Ordered preds size) {π : List Nat}
    (hπ : Trail (Leads preds) 0 (i :: π)) (hn : (i :: π).Nodup) : π.length < size := by
  have hs : i :: π ⊆ List.range size := fun j hj => List.mem_range.mpr (h.lt_of_trail hπ j hj)
  have hl := (hn.subperm hs).length_le
  rw [List.length_range, List.length_cons] at hl
  omega

end Ordered

/-! ## What a new parent keeps -/

/-- The tree loses no dominator: what has been found for a position reaches it along later ones. -/
structure Sound (preds : Nat → List Nat) (size : Nat) (m : DomMap) : Prop where
  size_eq : m.size = size
  root : m.dom? 0 = some 0
  parent : ∀ i d, 0 < i → m.dom? i = some d → d < i ∧ m.Known d ∧
    Relation.ReflTransGen (fun u v => Leads preds u v ∧ d ≤ v) d i
  keeps : ∀ i d, m.Known i → Dominates (Leads preds) 0 d i → m.Above d i

namespace Sound

theorem known_zero (h : Sound preds size m) : m.Known 0 := by
  rw [Known, h.root]
  rfl

theorem exists_parent (h : Sound preds size m) (hi : 0 < i) (hk : m.Known i) :
    ∃ d, m.dom? i = some d ∧ m.parent? i = some d := by
  obtain ⟨d, hd⟩ := Option.isSome_iff_exists.mp hk
  exact ⟨d, hd, parent?_eq_some_iff.mpr ⟨hd, (h.parent i d hi hd).1⟩⟩

theorem above_zero (h : Sound preds size m) (hk : m.Known i) : m.Above 0 i := by
  induction i using Nat.strongRecOn with
  | ind i ih =>
    by_cases h0 : i = 0
    · rw [h0]
      exact above_self m 0
    · obtain ⟨d, hd, hp⟩ := h.exists_parent (by omega) hk
      obtain ⟨hlt, hkd, -⟩ := h.parent i d (by omega) hd
      exact (ih d hlt hkd).tail hp

theorem known_of_above (h : Sound preds size m) (ha : m.Above k i) (hk : m.Known i) :
    m.Known k := by
  induction ha with
  | refl => exact hk
  | @tail p i _ hp ih =>
    obtain ⟨hd, hlt⟩ := parent?_eq_some_iff.mp hp
    exact ih (h.parent i p (by omega) hd).2.1

/-- Edges lead from what is above a position down to it, and never to an earlier position. -/
theorem rises (h : Sound preds size m) (ha : m.Above k i) :
    Relation.ReflTransGen (fun u v => Leads preds u v ∧ k ≤ v) k i := by
  induction ha with
  | refl => exact .refl
  | @tail p i ha hp ih =>
    obtain ⟨hd, hlt⟩ := parent?_eq_some_iff.mp hp
    have hkp := Above.le ha
    refine ih.trans (Relation.ReflTransGen.mono ?_ _ _ (h.parent i p (by omega) hd).2.2)
    exact fun u v huv => ⟨huv.1, hkp.trans huv.2⟩

/-- **An earlier dominator of a position dominates whatever stands above it in between.** -/
theorem dominates_of_above (h : Sound preds size m) (ha : m.Above i j) (hd : d < i)
    (hj : Dominates (Leads preds) 0 d j) : Dominates (Leads preds) 0 d i := by
  intro π hπ
  obtain ⟨ρ, hρ, hall⟩ := hπ.extend (h.rises ha)
  rcases hall d (hj ρ hρ) with hm | hle
  · exact hm
  · omega

/-- **Looking at a position again gives it a parent that is above all its predecessors**, and loses
no dominator. -/
theorem refine (h : Sound preds size m) (hi : 0 < i) (his : i < size)
    (hp : ∃ p ∈ preds i, p < i ∧ m.Known p) :
    ∃ d, d < i ∧ DomMap.refine preds m i = m.setIfInBounds i (some d) ∧
      (∀ k, m.Above k d ↔ ∀ p ∈ preds i, m.Known p → m.Above k p) ∧
      Sound preds size (m.setIfInBounds i (some d)) := by
  obtain ⟨p, hp, hpi, hpk⟩ := hp
  obtain ⟨d, hd⟩ := Option.isSome_iff_exists.mp (isSome_candidate?_iff.mpr ⟨p, hp, hpk⟩)
  have habove : ∀ k, m.Above k d ↔ ∀ p ∈ preds i, m.Known p → m.Above k p :=
    fun k => above_candidate?_iff (fun q _ hq => h.above_zero hq) hd
  have hdp : m.Above d p := (habove d).mp (above_self m d) p hp hpk
  have hdk : m.Known d := h.known_of_above hdp hpk
  have hdi : d < i := by
    have := hdp.le
    omega
  have him : i < m.size := by
    rw [h.size_eq]
    exact his
  -- a dominator of the position is one of all its predecessors
  have hdom : ∀ k, k ≠ i → Dominates (Leads preds) 0 k i → m.Above k d := fun k hk hki =>
    (habove k).mpr fun q hq hqk => h.keeps q k hqk (hki.of_edge hk hq)
  refine ⟨d, hdi, by rw [DomMap.refine, hd], habove, ?_⟩
  constructor
  case size_eq => rw [Array.size_setIfInBounds, h.size_eq]
  case root => rw [dom?_set him, if_neg (by omega), h.root]
  case parent =>
    intro j e hj he
    rw [dom?_set him] at he
    by_cases hji : j = i
    · rw [if_pos hji, Option.some_inj] at he
      rw [← he, hji]
      exact ⟨hdi, hdk.set him d, (h.rises hdp).tail ⟨hp, by omega⟩⟩
    · rw [if_neg hji] at he
      obtain ⟨hlt, hk, hr⟩ := h.parent j e hj he
      exact ⟨hlt, hk.set him d, hr⟩
  case keeps =>
    intro j e hj he
    rw [above_set_iff him hdi]
    by_cases hji : j = i
    · subst hji
      by_cases hej : e = j
      · rw [hej]
        exact .inl ⟨above_self m j, fun _ => Nat.le_refl j⟩
      · exact .inr ⟨above_self m j, hdom e hej he⟩
    · have hjk : m.Known j := by
        rw [Known, dom?_set him, if_neg hji] at hj
        exact hj
      by_cases hle : i ≤ e
      · exact .inl ⟨h.keeps j e hjk he, fun _ => hle⟩
      · by_cases hij : m.Above i j
        · exact .inr ⟨hij, hdom e (by omega) (h.dominates_of_above hij (by omega) he)⟩
        · exact .inl ⟨h.keeps j e hjk he, fun hc => absurd hc hij⟩

end Sound

/-! ## Short paths -/

/-- What is above the position lies on all paths to it that have at most `c` edges. -/
def Near (preds : Nat → List Nat) (m : DomMap) (c j : Nat) : Prop :=
  ∀ π, Trail (Leads preds) 0 (j :: π) → π.length ≤ c →
    m.Known j ∧ ∀ k, m.Above k j → k ∈ j :: π

theorem near_zero (h : Sound preds size m) (c : Nat) : Near preds m c 0 := by
  intro π _ _
  refine ⟨h.known_zero, fun k hk => ?_⟩
  rw [Nat.le_zero.mp hk.le]
  exact List.mem_cons_self

/-- A position that is looked at gains an edge on its predecessors. -/
theorem Near.set_self (hi : i < m.size) (hi0 : 0 < i) (hd : d < i)
    (habove : ∀ k, m.Above k d → ∀ p ∈ preds i, m.Known p → m.Above k p)
    (h : ∀ p, Near preds m c p) : Near preds (m.setIfInBounds i (some d)) (c + 1) i := by
  intro π hπ hl
  have hk : DomMap.Known (m.setIfInBounds i (some d)) i := by
    rw [Known, dom?_set hi, if_pos rfl]
    rfl
  refine ⟨hk, fun k hki => ?_⟩
  cases hπ with
  | start => omega
  | @step p _ π hπ hp =>
    obtain ⟨hpk, hnear⟩ := h p π hπ (by simpa using hl)
    rcases (above_set_iff hi hd).mp hki with ⟨hk, hle⟩ | ⟨-, hk⟩
    · rw [Nat.le_antisymm hk.le (hle (above_self m i))]
      exact List.mem_cons_self
    · exact List.mem_cons_of_mem _ (hnear k (habove k hk p hp hpk))

/-- The other positions keep what they have. -/
theorem Near.set (h : Near preds m c j) (hi : i < m.size) (hd : d < i) (hc : c ≤ n)
    (hnew : Near preds (m.setIfInBounds i (some d)) n i) :
    Near preds (m.setIfInBounds i (some d)) c j := by
  intro π hπ hl
  obtain ⟨hjk, hnear⟩ := h π hπ hl
  refine ⟨hjk.set hi d, fun k hk => ?_⟩
  rcases (above_set_iff hi hd).mp hk with ⟨hk, -⟩ | ⟨hij, hk⟩
  · exact hnear k hk
  · -- the way to `j` leads through `i`, and there what is above `i` has been met
    obtain ⟨ρ, hs, hρ⟩ := hπ.exists_suffix (hnear i hij)
    have hlen := hs.length_le
    rw [List.length_cons, List.length_cons] at hlen
    have hki : DomMap.Above (m.setIfInBounds i (some d)) k i :=
      (above_set_iff hi hd).mpr (.inr ⟨above_self m i, hk⟩)
    exact hs.subset ((hnew ρ hρ (by omega)).2 k hki)

/-! ## A round -/

/-- The map after looking at the positions from the second on, `n` of them. -/
def lookAt (preds : Nat → List Nat) (m : DomMap) (n : Nat) : DomMap :=
  (List.range' 1 n).foldl (refine preds) m

theorem lookAt_succ (preds : Nat → List Nat) (m : DomMap) (n : Nat) :
    lookAt preds m (n + 1) = refine preds (lookAt preds m n) (n + 1) := by
  rw [lookAt, List.range'_1_concat, List.foldl_append, lookAt, Nat.add_comm 1 n]
  rfl

theorem sound_lookAt (ho : Ordered preds size) (h : Sound preds size m)
    (hnear : ∀ j, Near preds m c j) (hn : n < size) :
    Sound preds size (lookAt preds m n) ∧ (∀ j ≤ n, (lookAt preds m n).Known j) ∧
      (∀ j ≤ n, Near preds (lookAt preds m n) (c + 1) j) ∧
      ∀ j, Near preds (lookAt preds m n) c j := by
  induction n with
  | zero =>
    refine ⟨h, fun j hj => ?_, fun j hj => ?_, hnear⟩
    · rw [Nat.le_zero.mp hj]
      exact h.known_zero
    · rw [Nat.le_zero.mp hj]
      exact near_zero h (c + 1)
  | succ n ih =>
    obtain ⟨hs, hk, hl, hc⟩ := ih (by omega)
    obtain ⟨p, hp, hlt⟩ := ho.earlier (n + 1) (by omega) hn
    obtain ⟨d, hd, he, habove, hs'⟩ :=
      hs.refine (by omega) hn ⟨p, hp, hlt, hk p (by omega)⟩
    have hsize : n + 1 < (lookAt preds m n).size := by
      rw [hs.size_eq]
      exact hn
    have hnew := Near.set_self hsize (by omega) hd (fun k => (habove k).mp) hc
    rw [lookAt_succ, he]
    refine ⟨hs', fun j hj => ?_, fun j hj => ?_, fun j => ?_⟩
    · by_cases hjn : j = n + 1
      · rw [hjn, Known, dom?_set hsize, if_pos rfl]
        rfl
      · exact (hk j (by omega)).set hsize d
    · by_cases hjn : j = n + 1
      · rw [hjn]
        exact hnew
      · exact (hl j (by omega)).set hsize hd (Nat.le_refl _) hnew
    · exact (hc j).set hsize hd (Nat.le_succ c) hnew

theorem round_eq_lookAt (h : Sound preds size m) :
    round preds m = lookAt preds m (size - 1) := by
  rw [round, h.size_eq]
  rfl

theorem sound_round (ho : Ordered preds size) (h : Sound preds size m)
    (hnear : ∀ j, Near preds m c j) :
    Sound preds size (round preds m) ∧ ∀ j, Near preds (round preds m) (c + 1) j := by
  have hpos := ho.pos
  rw [round_eq_lookAt h]
  obtain ⟨hs, -, hl, -⟩ := sound_lookAt ho h hnear (n := size - 1) (by omega)
  refine ⟨hs, fun j => ?_⟩
  by_cases hj : j < size
  · exact hl j (by omega)
  · exact fun π hπ _ => absurd (ho.lt_of_trail hπ j List.mem_cons_self) hj

/-! ## All rounds -/

theorem dom?_start (hs : 0 < size) (i : Nat) :
    (start size).dom? i = if i = 0 then some 0 else none := by
  rw [start, dom?_set (by simpa using hs)]
  congr 1
  rw [dom?, Array.getD_eq_getD_getElem?, Array.getElem?_replicate]
  split <;> rfl

theorem sound_start (hs : 0 < size) : Sound preds size (start size) where
  size_eq := by simp [start]
  root := by rw [dom?_start hs, if_pos rfl]
  parent i d hi hd := by
    rw [dom?_start hs, if_neg (by omega)] at hd
    cases hd
  keeps i d hi hd := by
    have h0 : i = 0 := by
      by_contra hne
      rw [Known, dom?_start hs, if_neg hne] at hi
      cases hi
    subst h0
    rw [List.mem_singleton.mp (hd [] .start)]
    exact above_self _ 0

/-- **After `n` rounds no dominator is lacking, and nothing is left that a path of at most `n` edges
avoids.** -/
theorem iterate_round (ho : Ordered preds size) (n : Nat) :
    Sound preds size ((round preds)^[n] (start size)) ∧
      ∀ j, Near preds ((round preds)^[n] (start size)) n j := by
  induction n with
  | zero =>
    refine ⟨sound_start ho.pos, fun j π hπ hl => ?_⟩
    obtain rfl : π = [] := List.eq_nil_of_length_eq_zero (Nat.le_zero.mp hl)
    cases hπ
    have hsound : Sound preds size (start size) := sound_start ho.pos
    exact near_zero hsound 0 [] .start hl
  | succ n ih =>
    rw [Function.iterate_succ_apply']
    exact sound_round ho ih.1 ih.2

/-- Every position is below its dominators, and below nothing else. -/
def Exact (preds : Nat → List Nat) (size : Nat) (m : DomMap) : Prop :=
  ∀ j < size, m.Known j ∧ ∀ k, m.Above k j ↔ Dominates (Leads preds) 0 k j

theorem exact_of_near (ho : Ordered preds size) (h : Sound preds size m) (hc : size ≤ c)
    (hnear : ∀ j, Near preds m c j) : Exact preds size m := by
  -- a path can be cut short until it is short enough
  have hshort : ∀ {j : Nat} {π : List Nat}, Trail (Leads preds) 0 (j :: π) →
      m.Known j ∧ ∀ k, m.Above k j → k ∈ j :: π := by
    intro j π hπ
    obtain ⟨ρ, hsub, hn, hρ⟩ := hπ.exists_nodup
    have hlen := ho.length_lt hρ hn
    obtain ⟨hk, hall⟩ := hnear j ρ hρ (by omega)
    exact ⟨hk, fun k hkj => List.cons_subset_cons j hsub (hall k hkj)⟩
  intro j hj
  obtain ⟨π, hπ⟩ := ho.exists_trail hj
  have hk : m.Known j := (hshort hπ).1
  exact ⟨hk, fun k => ⟨fun hkj ρ hρ => (hshort hρ).2 k hkj, h.keeps j k hk⟩⟩

/-- Looking again at a position whose dominators are known changes nothing. -/
theorem refine_eq_self (ho : Ordered preds size) (h : Sound preds size m)
    (he : Exact preds size m) (hi : 0 < i) (his : i < size) : refine preds m i = m := by
  obtain ⟨p, hp, hpi⟩ := ho.earlier i hi his
  have hpk : m.Known p := (he p (by omega)).1
  obtain ⟨d, hdi, hr, habove, -⟩ := h.refine hi his ⟨p, hp, hpi, hpk⟩
  obtain ⟨e, hdom, hpar⟩ := h.exists_parent hi (he i his).1
  have hiff : ∀ k, m.Above k d ↔ m.Above k e := by
    intro k
    rw [habove, above_parent_iff hpar]
    constructor
    · intro hk
      have hle := (hk p hp hpk).le
      refine ⟨((he i his).2 k).mpr fun π hπ => ?_, by omega⟩
      cases hπ with
      | start => omega
      | @step q _ π hπ hq =>
        obtain ⟨hqk, hqd⟩ := he q (ho.inside q i hq).1
        exact List.mem_cons_of_mem i ((hqd k).mp (hk q hq hqk) π hπ)
    · intro hk q hq hqk
      refine ((he q (ho.inside q i hq).1).2 k).mpr ?_
      exact (((he i his).2 k).mp hk.1).of_edge hk.2 hq
  have hde : d = e :=
    ((hiff d).mp (above_self m d)).antisymm ((hiff e).mpr (above_self m e))
  rw [hr, hde]
  refine Array.ext (by rw [Array.size_setIfInBounds]) fun j hj hj' => ?_
  rw [dom?, Array.getD_eq_getD_getElem?] at hdom
  rw [Array.getElem_setIfInBounds]
  split
  · rename_i hij
    subst hij
    rw [Array.getElem?_eq_getElem hj', Option.getD_some] at hdom
    exact hdom.symm
  · rfl

theorem round_eq_self (ho : Ordered preds size) (h : Sound preds size m)
    (he : Exact preds size m) : round preds m = m := by
  have hall : ∀ n < size, lookAt preds m n = m := by
    intro n hn
    induction n with
    | zero => rfl
    | succ n ih =>
      rw [lookAt_succ, ih (by omega)]
      exact refine_eq_self ho h he (by omega) hn
  rw [round_eq_lookAt h]
  exact hall _ (Nat.sub_lt ho.pos Nat.one_pos)

/-- The rounds are those that are made until one changes nothing, or until the limit. -/
theorem settle_eq_iterate (preds : Nat → List Nat) (limit : Nat) (m : DomMap) :
    ∃ n, settle preds limit m = (round preds)^[n] m ∧
      (round preds (settle preds limit m) = settle preds limit m ∨ n = limit) := by
  induction limit generalizing m with
  | zero => exact ⟨0, rfl, .inr rfl⟩
  | succ limit ih =>
    rw [settle]
    by_cases h : round preds m = m
    · rw [if_pos h]
      exact ⟨0, rfl, .inl h⟩
    · rw [if_neg h]
      obtain ⟨n, hn, hend⟩ := ih (round preds m)
      exact ⟨n + 1, hn, hend.imp id (congrArg (· + 1))⟩

/-- **After as many rounds as there are positions, a round changes nothing.** -/
theorem round_iterate (ho : Ordered preds size) :
    round preds ((round preds)^[size] (start size)) = (round preds)^[size] (start size) := by
  obtain ⟨hs, hnear⟩ := iterate_round ho size
  exact round_eq_self ho hs (exact_of_near ho hs (Nat.le_refl _) hnear)

/-- **The rounds end with what they settle on**, never before that because of their limit. -/
theorem ofPredecessors_eq (ho : Ordered preds size) :
    ofPredecessors size preds = (round preds)^[size] (start size) := by
  obtain ⟨n, hn, hfix | hlimit⟩ := settle_eq_iterate preds (size * size + 1) (start size)
  · calc ofPredecessors size preds
        = (round preds)^[size] (ofPredecessors size preds) :=
          (Function.iterate_fixed hfix size).symm
      _ = (round preds)^[n] ((round preds)^[size] (start size)) := by
          rw [ofPredecessors, hn, ← Function.iterate_add_apply, ← Function.iterate_add_apply,
            Nat.add_comm]
      _ = (round preds)^[size] (start size) := Function.iterate_fixed (round_iterate ho) n
  · have hpos := ho.pos
    have hle : size ≤ size * size := Nat.le_mul_of_pos_left size hpos
    obtain ⟨k, hk⟩ := Nat.exists_eq_add_of_le' (show size ≤ n by omega)
    rw [ofPredecessors, hn, hk, Function.iterate_add_apply]
    exact Function.iterate_fixed (round_iterate ho) k

theorem sound_ofPredecessors (ho : Ordered preds size) :
    Sound preds size (ofPredecessors size preds) := by
  rw [ofPredecessors_eq ho]
  exact (iterate_round ho size).1

/-- **The rounds find the dominators of every position, and nothing else.** -/
theorem exact_ofPredecessors (ho : Ordered preds size) :
    Exact preds size (ofPredecessors size preds) := by
  obtain ⟨hs, hnear⟩ := iterate_round ho size
  rw [ofPredecessors_eq ho]
  exact exact_of_near ho hs (Nat.le_refl _) hnear

end LayerCheck.DomMap
