import LayerCheck.Proofs.Digraph.DomWalk
import LayerCheck.Proofs.Digraph.Order

/-!
# Dominators are what every path passes through

The rounds and the walk speak of positions in reverse post order.  A position stands for a node
that the entry reaches, and the edges between positions are those between their nodes; so what holds
of the paths along positions holds of the paths of the graph.

* `Dominance.dominates_iff`, `Dominance.idom?_iff`: what dominance says of the nodes in an order.
* `Digraph.dominates_dominance_iff`, `Digraph.idom?_dominance_eq_some_iff`: what it says of a graph.
-/

namespace LayerCheck

variable {n : Nat} {g : Digraph n} {r u v : Fin n} {i j k d : Nat}

/-! ## Positions -/

namespace DomMap

variable {preds : Nat → List Nat} {size : Nat}

/-- **The parent that the rounds find is the immediate dominator.** -/
theorem parent?_ofPredecessors_iff (ho : Ordered preds size) (hj : j < size) :
    (ofPredecessors size preds).parent? j = some d ↔
      ImmediateDominator (Leads preds) 0 d j := by
  have hdom := fun k hk => (exact_ofPredecessors ho k hk).2
  constructor
  · intro hp
    have hlt := parent?_lt hp
    have hd : (ofPredecessors size preds).Above d j ∧ d ≠ j :=
      (above_parent_iff hp).mp (above_self _ d)
    refine ⟨hd.2, (hdom j hj d).mp hd.1, fun c hc hcj => ?_⟩
    refine (hdom d (by omega) c).mp ((above_parent_iff hp).mpr ⟨?_, hc⟩)
    exact (hdom j hj c).mpr hcj
  · intro h
    rcases above_iff.mp ((hdom j hj d).mpr h.dominates) with he | ⟨p, hdp, hp⟩
    · exact absurd he h.ne
    · have hpj : (ofPredecessors size preds).Above p j ∧ p ≠ j :=
        (above_parent_iff hp).mp (above_self _ p)
      have hpd := h.closest p hpj.2 ((hdom j hj p).mp hpj.1)
      have hd : d < size := by
        have := hdp.le
        have := parent?_lt hp
        omega
      rw [hp, hdp.antisymm ((hdom d hd p).mpr hpd)]

theorem isSome_parent?_ofPredecessors (ho : Ordered preds size) (hj : 0 < j) (hs : j < size) :
    ((ofPredecessors size preds).parent? j).isSome = true := by
  obtain ⟨d, -, hp⟩ :=
    (sound_ofPredecessors ho).exists_parent hj (exact_ofPredecessors ho j hs).1
  rw [hp]
  rfl

/-- **The spans nest as the positions dominate.** -/
theorem spans_ofPredecessors_iff (ho : Ordered preds size) (hj : j < size) (hk : k < size) :
    ∃ a b, (ofPredecessors size preds).spans.getD j none = some a ∧
      (ofPredecessors size preds).spans.getD k none = some b ∧
      (a.1 ≤ b.1 ∧ b.2 ≤ a.2 ↔ Dominates (Leads preds) 0 j k) := by
  have hs := sound_ofPredecessors ho
  have hdom := exact_ofPredecessors ho
  have hroot : ∀ i < (ofPredecessors size preds).size, (ofPredecessors size preds).Above 0 i := by
    intro i hi
    rw [hs.size_eq] at hi
    exact hs.above_zero (hdom i hi).1
  obtain ⟨a, b, ha, hb, hiff⟩ := spans_iff_above hroot (hs.size_eq ▸ hj) (hs.size_eq ▸ hk)
  exact ⟨a, b, ha, hb, hiff.trans ((hdom k hk).2 j)⟩

end DomMap

namespace Dominance

variable {order : List (Fin n)}

/-! ## From positions to nodes -/

/-- The predecessors of the positions in an order. -/
abbrev predsOf (g : Digraph n) (order : List (Fin n)) (k : Nat) : List Nat :=
  (predPositions g order).getD k []

/-- An order of what the root reaches. -/
structure Listed (g : Digraph n) (r : Fin n) (order : List (Fin n)) : Prop
    extends Digraph.Lined g r order where
  mem_iff : ∀ v, v ∈ order ↔ g.Reaches r v

namespace Listed

theorem first (h : Listed g r order) : order[0]? = some r := by
  rw [← List.head?_eq_getElem?, h.head]

/-- **Positions are on all paths to each other as their nodes are.** -/
theorem dominates_iff (h : Listed g r order) (hu : order[j]? = some u) (hv : order[k]? = some v) :
    Dominates (DomMap.Leads (predsOf g order)) 0 j k ↔ Dominates g.Edge r u v := by
  constructor
  · refine Dominates.transfer (R := fun x i => order[i]? = some x) ?_ ?_ ?_ hv
    · exact fun i hi => eq_of_getElem? h.nodup hi h.first
    · intro x y i π hπ he hi
      obtain ⟨i', hi'⟩ := List.mem_iff_getElem?.mp ((h.mem_iff x).mpr hπ.reaches)
      exact ⟨i', hi', (leads_predPositions_iff h.nodup).mpr ⟨x, y, hi', hi, he⟩⟩
    · intro x hx
      rw [hu, Option.some_inj] at hx
      exact hx.symm
  · refine Dominates.transfer (R := fun i x => order[i]? = some x) ?_ ?_ ?_ hv
    · intro x hx
      rw [h.first, Option.some_inj] at hx
      exact hx.symm
    · intro i i' x π _ he hx
      obtain ⟨y, z, hy, hz, he⟩ := (leads_predPositions_iff h.nodup).mp he
      rw [hx, Option.some_inj] at hz
      exact ⟨y, hy, hz ▸ he⟩
    · exact fun i hi => eq_of_getElem? h.nodup hi hu

/-- What is on every path to a node of the order is in the order. -/
theorem mem_of_dominates (h : Listed g r order) (hv : v ∈ order) (hd : Dominates g.Edge r u v) :
    u ∈ order := by
  obtain ⟨π, hπ⟩ := Trail.exists_of_reaches ((h.mem_iff v).mp hv)
  obtain ⟨ρ, -, hρ⟩ := hπ.exists_suffix (hd π hπ)
  exact (h.mem_iff u).mpr hρ.reaches

theorem immediateDominator_iff (h : Listed g r order) (hu : order[j]? = some u)
    (hv : order[k]? = some v) :
    ImmediateDominator (DomMap.Leads (predsOf g order)) 0 j k ↔
      ImmediateDominator g.Edge r u v := by
  have hne : j ≠ k ↔ u ≠ v := by
    constructor
    · exact fun hne he => hne (eq_of_getElem? h.nodup hu (he ▸ hv))
    · intro hne he
      rw [he, hv, Option.some_inj] at hu
      exact hne hu.symm
  constructor
  · intro hi
    refine ⟨hne.mp hi.ne, (h.dominates_iff hu hv).mp hi.dominates, fun c hc hcv => ?_⟩
    obtain ⟨i, hc'⟩ :=
      List.mem_iff_getElem?.mp (h.mem_of_dominates (List.mem_of_getElem? hv) hcv)
    refine (h.dominates_iff hc' hu).mp (hi.closest i ?_ ((h.dominates_iff hc' hv).mpr hcv))
    rintro rfl
    rw [hv, Option.some_inj] at hc'
    exact hc hc'.symm
  · intro hi
    refine ⟨hne.mpr hi.ne, (h.dominates_iff hu hv).mpr hi.dominates, fun i hik hdom => ?_⟩
    have ho := ordered_predPositions h.toLined
    obtain ⟨π, hπ⟩ := ho.exists_trail (List.getElem?_eq_some_iff.mp hv).1
    have hlt : i < order.length := ho.lt_of_trail hπ i (hdom π hπ)
    have hc : order[i]? = some order[i] := List.getElem?_eq_getElem hlt
    refine (h.dominates_iff hc hu).mpr (hi.closest _ ?_ ((h.dominates_iff hc hv).mp hdom))
    exact fun he => hik (eq_of_getElem? h.nodup hc (he ▸ hv))

end Listed

/-! ## What is computed for an order -/

theorem position_ofOrder (order : List (Fin n)) (v : Fin n) :
    (ofOrder g order).position.get v = (positions order).get v := rfl

theorem position_eq_none (hn : order.Nodup) (hv : v ∉ order) : (positions order).get v = none := by
  rw [Option.eq_none_iff_forall_not_mem]
  exact fun k hk => hv (List.mem_of_getElem? ((position_eq_some_iff hn).mp hk))

/-- **Dominance in an order is dominance in the graph.** -/
theorem dominates_ofOrder_iff (h : Listed g r order) (hu : u ∈ order) (hv : v ∈ order) :
    (ofOrder g order).dominates u v = true ↔ Dominates g.Edge r u v := by
  obtain ⟨j, hj⟩ := List.mem_iff_getElem?.mp hu
  obtain ⟨k, hk⟩ := List.mem_iff_getElem?.mp hv
  have ho := ordered_predPositions h.toLined
  obtain ⟨a, b, ha, hb, hiff⟩ := DomMap.spans_ofPredecessors_iff ho
    (List.getElem?_eq_some_iff.mp hj).1 (List.getElem?_eq_some_iff.mp hk).1
  have hsu : (ofOrder g order).span? u = some a := by
    rw [span?, position_ofOrder, (position_eq_some_iff h.nodup).mpr hj, Option.bind_some]
    exact ha
  have hsv : (ofOrder g order).span? v = some b := by
    rw [span?, position_ofOrder, (position_eq_some_iff h.nodup).mpr hk, Option.bind_some]
    exact hb
  rw [dominates, hsu, hsv]
  simp only [Bool.or_eq_true, decide_eq_true_eq, Bool.and_eq_true]
  rw [hiff, h.dominates_iff hj hk]
  exact or_iff_right_of_imp fun he => he ▸ Dominates.refl u

/-- Nodes outside of the order dominate themselves only, and nothing else dominates them. -/
theorem dominates_ofOrder_outside (hn : order.Nodup) (h : u ∉ order ∨ v ∉ order) :
    (ofOrder g order).dominates u v = true ↔ u = v := by
  have hspan : (ofOrder g order).span? u = none ∨ (ofOrder g order).span? v = none := by
    refine h.imp (fun hu => ?_) (fun hv => ?_)
    · rw [span?, position_ofOrder, position_eq_none hn hu, Option.bind_none]
    · rw [span?, position_ofOrder, position_eq_none hn hv, Option.bind_none]
  rw [dominates]
  rcases hspan with hu | hv
  · simp [hu]
  · simp [hv]

/-- **The immediate dominator in an order is that in the graph.** -/
theorem idom?_ofOrder_iff (h : Listed g r order) :
    (ofOrder g order).idom? v = some u ↔ v ∈ order ∧ ImmediateDominator g.Edge r u v := by
  have ho := ordered_predPositions h.toLined
  simp only [idom?, Option.bind_eq_bind, Option.bind_eq_some_iff, position_ofOrder,
    position_eq_some_iff h.nodup]
  constructor
  · intro hx
    obtain ⟨k, hk, j, hp, hj⟩ := hx
    have hj : order[j]? = some u := (List.getElem?_toArray ..).symm.trans hj
    refine ⟨List.mem_of_getElem? hk, (h.immediateDominator_iff hj hk).mp ?_⟩
    exact (DomMap.parent?_ofPredecessors_iff ho (List.getElem?_eq_some_iff.mp hk).1).mp hp
  · intro hx
    obtain ⟨hv, hi⟩ := hx
    obtain ⟨k, hk⟩ := List.mem_iff_getElem?.mp hv
    obtain ⟨j, hj⟩ := List.mem_iff_getElem?.mp (h.mem_of_dominates hv hi.dominates)
    refine ⟨k, hk, j, ?_, (List.getElem?_toArray ..).trans hj⟩
    refine (DomMap.parent?_ofPredecessors_iff ho (List.getElem?_eq_some_iff.mp hk).1).mpr ?_
    exact (h.immediateDominator_iff hj hk).mpr hi

theorem isSome_idom?_ofOrder_iff (h : Listed g r order) :
    ((ofOrder g order).idom? v).isSome = true ↔ v ∈ order ∧ v ≠ r := by
  constructor
  · intro hs
    obtain ⟨u, hu⟩ := Option.isSome_iff_exists.mp hs
    obtain ⟨hv, hi⟩ := (idom?_ofOrder_iff h).mp hu
    refine ⟨hv, ?_⟩
    rintro rfl
    exact hi.ne (List.mem_singleton.mp (hi.dominates [] .start))
  · intro hx
    obtain ⟨hv, hne⟩ := hx
    obtain ⟨k, hk⟩ := List.mem_iff_getElem?.mp hv
    have hlt := (List.getElem?_eq_some_iff.mp hk).1
    have hpos : 0 < k := by
      refine Nat.pos_of_ne_zero fun h0 => hne ?_
      rw [h0, h.first, Option.some_inj] at hk
      exact hk.symm
    have ho := ordered_predPositions h.toLined
    obtain ⟨j, hj⟩ :=
      Option.isSome_iff_exists.mp (DomMap.isSome_parent?_ofPredecessors ho hpos hlt)
    have hjk := DomMap.parent?_lt hj
    have hidom : (ofOrder g order).idom? v = order[j]? := by
      rw [idom?, position_ofOrder, (position_eq_some_iff h.nodup).mpr hk]
      show ((ofOrder g order).doms.parent? k).bind _ = _
      rw [show (ofOrder g order).doms.parent? k = some j from hj]
      exact List.getElem?_toArray ..
    rw [hidom, List.getElem?_eq_getElem (by omega)]
    rfl

end Dominance

/-! ## What is computed for a graph -/

namespace Digraph

theorem listed_revPostOrder (hr : entry? n = some r) : Dominance.Listed g r g.revPostOrder where
  toLined := lined_revPostOrder hr
  mem_iff v := by
    rw [mem_revPostOrder_iff, hr]
    simp

/-- **Dominance of a reachable node is dominance along all paths to it.** -/
theorem dominates_dominance_iff (hr : entry? n = some r) (hv : g.Reaches r v) :
    g.dominance.dominates u v = true ↔ Dominates g.Edge r u v := by
  have hl := listed_revPostOrder (g := g) hr
  have hv' := (hl.mem_iff v).mpr hv
  by_cases hu : u ∈ g.revPostOrder
  · exact Dominance.dominates_ofOrder_iff hl hu hv'
  · rw [dominance, Dominance.dominates_ofOrder_outside hl.nodup (.inl hu)]
    refine iff_of_false (fun he => hu (he ▸ hv')) (fun hd => hu (hl.mem_of_dominates hv' hd))

theorem dominates_dominance_outside (hr : entry? n = some r)
    (h : ¬ g.Reaches r u ∨ ¬ g.Reaches r v) : g.dominance.dominates u v = true ↔ u = v := by
  have hl := listed_revPostOrder (g := g) hr
  refine Dominance.dominates_ofOrder_outside hl.nodup (h.imp ?_ ?_)
  · exact fun hu => hu ∘ (hl.mem_iff u).mp
  · exact fun hv => hv ∘ (hl.mem_iff v).mp

theorem idom?_dominance_eq_some_iff (hr : entry? n = some r) :
    g.dominance.idom? v = some u ↔ g.Reaches r v ∧ ImmediateDominator g.Edge r u v := by
  have hl := listed_revPostOrder (g := g) hr
  rw [dominance, Dominance.idom?_ofOrder_iff hl, hl.mem_iff]

theorem isSome_idom?_dominance_iff (hr : entry? n = some r) :
    (g.dominance.idom? v).isSome = true ↔ g.Reaches r v ∧ v ≠ r := by
  have hl := listed_revPostOrder (g := g) hr
  rw [dominance, Dominance.isSome_idom?_ofOrder_iff hl, hl.mem_iff]

end Digraph

end LayerCheck
