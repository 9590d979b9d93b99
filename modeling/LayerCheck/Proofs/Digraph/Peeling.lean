import LayerCheck.Digraph.Reducible
import LayerCheck.Proofs.Digraph.Circuits

/-!
# Peeling a graph

The test for reducibility takes away nodes that no remaining node has a forward edge to.  A node on
a cycle of forward edges always has one into it from another such node, so it is never taken away.
If there is no such cycle, the remaining nodes have a first one among them, which can go.

An edge is dropped by counting down, which a count of zero would not survive.  So beside the steps
there are steps that look at the count first, and these never fail.

* `Digraph.Peeling.Peeled`: what every step keeps, for the nodes that remain.
* `Digraph.Peeling.gone_eq_length_iff`: all nodes go if there is no cycle.
* `Digraph.Peeling.run?`, `Digraph.run?_peeling`: no count is counted down from zero.
* `Digraph.isReducible_iff`: a graph is reducible if its forward edges close no cycle.
-/

namespace LayerCheck.Digraph

variable {n : Nat}

namespace Peeling

variable {forward : Fin n → List (Fin n)} {nodes rem rest ws : List (Fin n)} {s : Peeling n}
  {u v w : Fin n}

/-! ## Edges are dropped -/

theorem counts_dropEdge (s : Peeling n) (w v : Fin n) :
    (s.dropEdge w).counts.get v = if v = w then s.counts.get v - 1 else s.counts.get v := by
  have h : (s.dropEdge w).counts.get v =
      if (w : Nat) = v then s.counts.get w - 1 else s.counts.get v :=
    Vector.getElem_set w.isLt v.isLt
  rw [h]
  by_cases hv : v = w
  · rw [if_pos hv, if_pos (congrArg Fin.val hv.symm), hv]
  · rw [if_neg hv, if_neg fun he => hv (Fin.ext he.symm)]

theorem ready_dropEdge (s : Peeling n) (w : Fin n) :
    (s.dropEdge w).ready = if s.counts.get w - 1 = 0 then w :: s.ready else s.ready := rfl

/-- What dropping edges to the nodes `ws` does. -/
structure Dropped (s t : Peeling n) (ws : List (Fin n)) : Prop where
  gone : t.gone = s.gone
  counts : ∀ v, t.counts.get v = s.counts.get v - ws.count v
  mem_ready : ∀ v, v ∈ t.ready ↔ v ∈ s.ready ∨ v ∈ ws ∧ s.counts.get v = ws.count v
  nodup : s.ready.Nodup → (∀ v ∈ s.ready, v ∉ ws) → t.ready.Nodup

/-- What is left after an edge is enough for the other edges. -/
theorem count_le_dropEdge (h : ∀ v, (w :: ws).count v ≤ s.counts.get v) (v : Fin n) :
    ws.count v ≤ (s.dropEdge w).counts.get v := by
  have hv := h v
  rw [counts_dropEdge]
  by_cases hvw : v = w
  · subst hvw
    rw [List.count_cons_self] at hv
    rw [if_pos rfl]
    omega
  · rw [if_neg hvw]
    rwa [List.count_cons_of_ne (Ne.symm hvw)] at hv

/-- **Edges are dropped one by one**, and each node becomes ready with its last edge. -/
theorem dropped_foldl (h : ∀ v, ws.count v ≤ s.counts.get v) :
    Dropped s (ws.foldl dropEdge s) ws := by
  induction ws generalizing s with
  | nil => exact ⟨rfl, fun v => rfl, fun v => by simp, fun hn _ => hn⟩
  | cons w ws ih =>
    have hself := h w
    rw [List.count_cons_self] at hself
    have hother : ∀ v, v ≠ w → (w :: ws).count v = ws.count v :=
      fun v hv => List.count_cons_of_ne hv.symm
    have hd := ih (count_le_dropEdge h)
    rw [List.foldl_cons]
    constructor
    case gone => exact hd.gone
    case counts =>
      intro v
      rw [hd.counts, counts_dropEdge]
      by_cases hvw : v = w
      · subst hvw
        rw [if_pos rfl, List.count_cons_self]
        omega
      · rw [if_neg hvw, hother v hvw]
    case mem_ready =>
      intro v
      rw [hd.mem_ready, counts_dropEdge, ready_dropEdge]
      by_cases hvw : v = w
      · subst hvw
        rw [if_pos rfl, List.count_cons_self]
        by_cases hm : v ∈ ws
        · have hpos := List.count_pos_iff.mpr hm
          rw [if_neg (by omega)]
          refine or_congr_right ?_
          simp only [hm, true_and, List.mem_cons_self]
          omega
        · rw [List.count_eq_zero_of_not_mem hm] at hself ⊢
          by_cases hone : s.counts.get v - 1 = 0
          · have hc : s.counts.get v = 1 := by omega
            simp [hc]
          · have hc : s.counts.get v ≠ 1 := by omega
            simp [hone, hm, hc]
      · rw [if_neg hvw, hother v hvw]
        have hready : v ∈ (if s.counts.get w - 1 = 0 then w :: s.ready else s.ready) ↔
            v ∈ s.ready := by
          split
          · simp [hvw]
          · rfl
        rw [hready, List.mem_cons, or_iff_right hvw]
    case nodup =>
      intro hn hd'
      have hw : w ∉ s.ready := fun hm => hd' w hm List.mem_cons_self
      refine hd.nodup ?_ ?_
      · rw [ready_dropEdge]
        split
        · exact List.nodup_cons.mpr ⟨hw, hn⟩
        · exact hn
      · intro v hv hvs
        rw [ready_dropEdge] at hv
        split at hv
        · rcases List.mem_cons.mp hv with rfl | hv
          · have hpos := List.count_pos_iff.mpr hvs
            omega
          · exact hd' v hv (List.mem_cons_of_mem w hvs)
        · exact hd' v hv (List.mem_cons_of_mem w hvs)

/-- Takes away an edge into `w`, if one is left. -/
def dropEdge? (s : Peeling n) (w : Fin n) : Option (Peeling n) :=
  if s.counts.get w = 0 then none else some (s.dropEdge w)

/-- A step that fails where a count would fall below zero. -/
def step? (forward : Fin n → List (Fin n)) (s : Peeling n) : Option (Peeling n) :=
  match s.ready with
  | [] => some s
  | v :: rest => (forward v).foldlM dropEdge? { s with ready := rest, gone := s.gone + 1 }

def run? (forward : Fin n → List (Fin n)) : Nat → Peeling n → Option (Peeling n)
  | 0, s => some s
  | steps + 1, s => (s.step? forward).bind (run? forward steps)

/-- No count falls below zero. -/
theorem foldlM_dropEdge? (h : ∀ v, ws.count v ≤ s.counts.get v) :
    ws.foldlM dropEdge? s = some (ws.foldl dropEdge s) := by
  induction ws generalizing s with
  | nil => rfl
  | cons w ws ih =>
    have hw := h w
    rw [List.count_cons_self] at hw
    have hdrop : s.dropEdge? w = some (s.dropEdge w) := if_neg (by omega)
    rw [List.foldlM_cons, hdrop]
    exact ih (count_le_dropEdge h)

/-! ## Nodes are taken away -/

theorem run_of_ready_eq_nil (hr : s.ready = []) (steps : Nat) : s.run forward steps = s := by
  have hstep : s.step forward = s := by rw [step, hr]
  induction steps with
  | zero => rfl
  | succ steps ih => rw [run, hstep, ih]

/-- An edge that the peeling knows of. -/
def Leaves (forward : Fin n → List (Fin n)) (nodes : List (Fin n)) (u v : Fin n) : Prop :=
  u ∈ nodes ∧ v ∈ forward u

/-- What every step keeps, if the nodes in `rem` are left of those in `nodes`. -/
structure Peeled (forward : Fin n → List (Fin n)) (nodes rem : List (Fin n)) (s : Peeling n) :
    Prop where
  nodup : rem.Nodup
  subset : rem ⊆ nodes
  length : s.gone + rem.length = nodes.length
  counts : ∀ w, s.counts.get w = (rem.flatMap forward).count w
  ready_nodup : s.ready.Nodup
  mem_ready : ∀ v, v ∈ s.ready ↔ v ∈ rem ∧ s.counts.get v = 0
  done : ∀ w ∈ nodes, w ∉ rem → s.counts.get w = 0
  cyclic : ∀ v, Relation.TransGen (Leaves forward nodes) v v → v ∈ rem

namespace Peeled

/-- A node that waits to be taken away is on no cycle. -/
theorem not_cyclic (h : Peeled forward nodes rem s) (hv : v ∈ s.ready) :
    ¬ Relation.TransGen (Leaves forward nodes) v v := by
  intro hc
  obtain ⟨u, hvu, huv⟩ := Relation.TransGen.tail'_iff.mp hc
  have hu : u ∈ rem := h.cyclic u (Relation.TransGen.head' huv hvu)
  have hzero := ((h.mem_ready v).mp hv).2
  rw [h.counts, List.count_eq_zero] at hzero
  exact hzero (List.mem_flatMap.mpr ⟨u, hu, huv.2⟩)

/-- The edges into a node are those from the node that goes and those from the others. -/
theorem counts_eq (h : Peeled forward nodes rem s) (hv : v ∈ rem) (w : Fin n) :
    s.counts.get w = (forward v).count w + ((rem.erase v).flatMap forward).count w := by
  rw [h.counts, ((List.perm_cons_erase hv).flatMap_right forward).count_eq, List.flatMap_cons,
    List.count_append]

/-- The edges that leave a node which is ready are all counted. -/
theorem count_forward_le (h : Peeled forward nodes rem s) (hr : s.ready = v :: rest) (w : Fin n) :
    (forward v).count w ≤ s.counts.get w := by
  have hv : v ∈ rem := ((h.mem_ready v).mp (hr ▸ List.mem_cons_self)).1
  exact (h.counts_eq hv w).symm ▸ Nat.le_add_right _ _

theorem dropped (h : Peeled forward nodes rem s) (hr : s.ready = v :: rest) :
    Dropped { s with ready := rest, gone := s.gone + 1 } (s.step forward) (forward v) := by
  have hs : s.step forward =
      (forward v).foldl dropEdge { s with ready := rest, gone := s.gone + 1 } := by
    rw [Peeling.step, hr]
  rw [hs]
  exact dropped_foldl (h.count_forward_le hr)

theorem step?_eq (h : Peeled forward nodes rem s) : s.step? forward = some (s.step forward) := by
  cases hr : s.ready with
  | nil => rw [step?, Peeling.step, hr]
  | cons v rest =>
    rw [step?, Peeling.step, hr]
    exact foldlM_dropEdge? (h.count_forward_le hr)

/-- After a step the remaining nodes without an edge into them are ready. -/
theorem mem_ready_step (hclosed : ∀ u ∈ nodes, ∀ w ∈ forward u, w ∈ nodes)
    (h : Peeled forward nodes rem s) (hr : s.ready = v :: rest) :
    u ∈ (s.step forward).ready ↔ u ∈ rem.erase v ∧ (s.step forward).counts.get u = 0 := by
  obtain ⟨hvr, hv0⟩ := (h.mem_ready v).mp (hr ▸ List.mem_cons_self)
  have hvrest : v ∉ rest := (List.nodup_cons.mp (hr ▸ h.ready_nodup)).1
  have hcounts : (s.step forward).counts.get u = s.counts.get u - (forward v).count u :=
    (h.dropped hr).counts u
  rw [(h.dropped hr).mem_ready, hcounts, h.nodup.mem_erase_iff]
  constructor
  · intro hx
    rcases hx with hu | ⟨hu, hc⟩
    · obtain ⟨hur, hu0⟩ := (h.mem_ready u).mp (hr ▸ List.mem_cons_of_mem v hu)
      exact ⟨⟨fun he => hvrest (he ▸ hu), hur⟩, by omega⟩
    · have hc : s.counts.get u = (forward v).count u := hc
      have hpos := List.count_pos_iff.mpr hu
      refine ⟨⟨?_, ?_⟩, by omega⟩
      · rintro rfl
        omega
      · by_contra hn
        have := h.done u (hclosed v (h.subset hvr) u hu) hn
        omega
  · intro hx
    obtain ⟨⟨hne, hur⟩, h0⟩ := hx
    by_cases hu : u ∈ forward v
    · have := h.counts_eq hvr u
      exact .inr ⟨hu, show s.counts.get u = _ by omega⟩
    · rw [List.count_eq_zero_of_not_mem hu] at h0
      have hm : u ∈ s.ready := (h.mem_ready u).mpr ⟨hur, h0⟩
      rw [hr] at hm
      exact .inl ((List.mem_cons.mp hm).resolve_left hne)

/-- **A step takes one node away, and keeps what holds.** -/
theorem step (hclosed : ∀ u ∈ nodes, ∀ w ∈ forward u, w ∈ nodes)
    (h : Peeled forward nodes rem s) (hr : s.ready = v :: rest) :
    Peeled forward nodes (rem.erase v) (s.step forward) := by
  have hv : v ∈ s.ready := hr ▸ List.mem_cons_self
  obtain ⟨hvr, hv0⟩ := (h.mem_ready v).mp hv
  have hmem : ∀ u, u ∈ rem.erase v ↔ u ≠ v ∧ u ∈ rem := fun u => h.nodup.mem_erase_iff
  have hd := h.dropped hr
  have hcounts : ∀ w, (s.step forward).counts.get w = s.counts.get w - (forward v).count w :=
    hd.counts
  constructor
  case nodup => exact h.nodup.erase v
  case subset => exact fun u hu => h.subset (List.mem_of_mem_erase hu)
  case length =>
    have hg : (s.step forward).gone = s.gone + 1 := hd.gone
    have hl := h.length
    have hpos := List.length_pos_of_mem hvr
    rw [hg, List.length_erase_of_mem hvr]
    omega
  case counts =>
    intro w
    rw [hcounts, h.counts_eq hvr]
    omega
  case ready_nodup =>
    refine hd.nodup (List.nodup_cons.mp (hr ▸ h.ready_nodup)).2 fun u hu huv => ?_
    -- what is ready has no edge into it
    have hu0 := ((h.mem_ready u).mp (hr ▸ List.mem_cons_of_mem v hu)).2
    have hpos := List.count_pos_iff.mpr huv
    have := h.counts_eq hvr u
    omega
  case mem_ready => exact fun u => h.mem_ready_step hclosed hr
  case done =>
    intro w hw hn
    rw [hcounts]
    by_cases hwv : w = v
    · rw [hwv, hv0, Nat.zero_sub]
    · rw [h.done w hw fun hm => hn ((hmem w).mpr ⟨hwv, hm⟩), Nat.zero_sub]
  case cyclic =>
    intro u hu
    exact (hmem u).mpr ⟨fun he => h.not_cyclic (he ▸ hv) hu, h.cyclic u hu⟩

/-- **The steps go on until nothing is ready**, if there are as many as nodes that remain. -/
theorem run (hclosed : ∀ u ∈ nodes, ∀ w ∈ forward u, w ∈ nodes) {steps : Nat}
    (h : Peeled forward nodes rem s) (hs : rem.length ≤ steps) :
    ∃ rem', Peeled forward nodes rem' (s.run forward steps) ∧
      (s.run forward steps).ready = [] := by
  induction steps generalizing s rem with
  | zero =>
    obtain rfl : rem = [] := List.eq_nil_of_length_eq_zero (Nat.le_zero.mp hs)
    refine ⟨[], h, List.eq_nil_iff_forall_not_mem.mpr fun v hv => ?_⟩
    exact absurd ((h.mem_ready v).mp hv).1 List.not_mem_nil
  | succ steps ih =>
    cases hr : s.ready with
    | nil =>
      rw [run_of_ready_eq_nil hr]
      exact ⟨rem, h, hr⟩
    | cons v rest =>
      rw [Peeling.run]
      refine ih (h.step hclosed hr) ?_
      have hv : v ∈ rem := ((h.mem_ready v).mp (hr ▸ List.mem_cons_self)).1
      rw [List.length_erase_of_mem hv]
      omega

/-- **No step counts down from zero.** -/
theorem run?_eq (hclosed : ∀ u ∈ nodes, ∀ w ∈ forward u, w ∈ nodes)
    (h : Peeled forward nodes rem s) (steps : Nat) :
    s.run? forward steps = some (s.run forward steps) := by
  induction steps generalizing s rem with
  | zero => rfl
  | succ steps ih =>
    rw [run?, h.step?_eq, Option.bind_some, Peeling.run]
    cases hr : s.ready with
    | nil =>
      have hs : s.step forward = s := by rw [Peeling.step, hr]
      rw [hs]
      exact ih h
    | cons v rest => exact ih (h.step hclosed hr)

/-- If nothing is ready although something is left, there is a cycle. -/
theorem eq_nil (h : Peeled forward nodes rem s) (hr : s.ready = [])
    (ha : ∀ v, ¬ Relation.TransGen (Leaves forward nodes) v v) : rem = [] := by
  by_contra hne
  obtain ⟨v, hv, hfirst⟩ := exists_first_of_acyclic ha hne
  have hcount : s.counts.get v ≠ 0 := by
    intro h0
    have hm := (h.mem_ready v).mpr ⟨hv, h0⟩
    rw [hr] at hm
    exact List.not_mem_nil hm
  rw [h.counts, Ne, List.count_eq_zero, not_not, List.mem_flatMap] at hcount
  obtain ⟨u, hu, huv⟩ := hcount
  exact hfirst u hu (.single ⟨h.subset hu, huv⟩)

end Peeled

/-- **All nodes go exactly if there is no cycle.** -/
theorem gone_eq_length_iff (hclosed : ∀ u ∈ nodes, ∀ w ∈ forward u, w ∈ nodes) {steps : Nat}
    (h : Peeled forward nodes nodes s) (hs : nodes.length ≤ steps) :
    (s.run forward steps).gone = nodes.length ↔
      ∀ v, ¬ Relation.TransGen (Leaves forward nodes) v v := by
  obtain ⟨rem, hp, hr⟩ := h.run hclosed hs
  have hl := hp.length
  constructor
  · intro hg v hv
    have hnil : rem = [] := List.eq_nil_of_length_eq_zero (by omega)
    exact List.not_mem_nil (hnil ▸ hp.cyclic v hv)
  · intro ha
    rw [hp.eq_nil hr ha, List.length_nil] at hl
    exact hl

end Peeling

/-! ## Graphs -/

/-- The nodes that the test takes away. -/
def reachableNodes (d : Dominance n) : List (Fin n) := (List.finRange n).filter d.reachable

/-- What the test for reducibility begins with. -/
def peeling (g : Digraph n) (d : Dominance n) : Peeling n :=
  let counts := Vector.ofFn fun w => ((reachableNodes d).flatMap (g.forward d)).count w
  { counts, ready := (reachableNodes d).filter fun v => counts.get v = 0 }

variable {g : Digraph n} {r u v : Fin n}

theorem isReducible_eq (g : Digraph n) (d : Dominance n) :
    g.isReducible d =
      decide (((g.peeling d).run (g.forward d) n).gone = (reachableNodes d).length) :=
  rfl

theorem length_reachableNodes_le (d : Dominance n) : (reachableNodes d).length ≤ n := by
  have hl := List.length_filter_le d.reachable (List.finRange n)
  rwa [List.length_finRange] at hl

theorem mem_reachableNodes :
    v ∈ reachableNodes g.dominance ↔ ∃ r, entry? n = some r ∧ g.Reaches r v := by
  rw [reachableNodes, List.mem_filter, reachable_dominance_iff]
  exact and_iff_right (List.mem_finRange v)

theorem forward_subset_reachableNodes :
    ∀ u ∈ reachableNodes g.dominance, ∀ w ∈ g.forward g.dominance u,
      w ∈ reachableNodes g.dominance := by
  intro u hu w hw
  obtain ⟨r, hr, hru⟩ := mem_reachableNodes.mp hu
  exact mem_reachableNodes.mpr ⟨r, hr, hru.tail (List.mem_of_mem_filter hw)⟩

theorem peeled_peeling (g : Digraph n) :
    Peeling.Peeled (g.forward g.dominance) (reachableNodes g.dominance)
      (reachableNodes g.dominance) (g.peeling g.dominance) := by
  have hnodup : (reachableNodes g.dominance).Nodup := (List.nodup_finRange n).filter _
  constructor
  case nodup => exact hnodup
  case subset => exact List.Subset.refl _
  case length => exact Nat.zero_add _
  case counts => exact fun w => Vector.getElem_ofFn w.isLt
  case ready_nodup => exact hnodup.filter _
  case mem_ready =>
    intro v
    exact List.mem_filter.trans (and_congr_right fun _ => decide_eq_true_iff)
  case done => exact fun w hw hn => absurd hw hn
  case cyclic =>
    intro v hv
    obtain ⟨u, -, hu, huv⟩ := Relation.TransGen.tail'_iff.mp hv
    exact forward_subset_reachableNodes u hu v huv

/-- **The test counts down from zero nowhere**, and it ends with nothing left to take away. -/
theorem run?_peeling (g : Digraph n) :
    ∃ s, (g.peeling g.dominance).run? (g.forward g.dominance) n = some s ∧ s.ready = [] ∧
      g.isReducible g.dominance = decide (s.gone = (reachableNodes g.dominance).length) := by
  have hp := peeled_peeling g
  obtain ⟨-, -, hready⟩ :=
    hp.run forward_subset_reachableNodes (length_reachableNodes_le g.dominance)
  exact ⟨_, hp.run?_eq forward_subset_reachableNodes n, hready, isReducible_eq g g.dominance⟩

theorem isReducible_of_entry?_eq_none (h : entry? n = none) :
    g.isReducible g.dominance = true := by
  rw [isReducible_eq, decide_eq_true_iff]
  have hnil : reachableNodes g.dominance = [] := by
    refine List.eq_nil_iff_forall_not_mem.mpr fun v hv => ?_
    obtain ⟨r, hr, -⟩ := mem_reachableNodes.mp hv
    exact nomatch h.symm.trans hr
  obtain ⟨rem, hp, -⟩ :=
    (peeled_peeling g).run forward_subset_reachableNodes (length_reachableNodes_le g.dominance)
  have hl := hp.length
  rw [hnil, List.length_nil] at hl ⊢
  omega

theorem mem_forward_iff (hr : entry? n = some r) (hu : g.Reaches r u) :
    v ∈ g.forward g.dominance u ↔ g.Edge u v ∧ ¬ Dominates g.Edge r v u := by
  rw [forward, List.mem_filter, ← dominates_dominance_iff hr hu, Bool.not_eq_true']
  exact and_congr_right fun _ => Bool.not_eq_true _ ▸ Iff.rfl

/-- **A graph is reducible exactly if its forward edges close no cycle.** -/
theorem isReducible_iff (hr : entry? n = some r) :
    g.isReducible g.dominance = true ↔ ∀ v, ¬ Relation.TransGen (Forward g.Edge r) v v := by
  have hleaves : Peeling.Leaves (g.forward g.dominance) (reachableNodes g.dominance) =
      Forward g.Edge r := by
    funext u v
    have hmem : u ∈ reachableNodes g.dominance ↔ g.Reaches r u := by
      rw [mem_reachableNodes, hr]
      simp
    rw [Peeling.Leaves, Forward, hmem, eq_iff_iff]
    exact and_congr_right fun hu => mem_forward_iff hr hu
  rw [isReducible_eq, decide_eq_true_iff, ← hleaves]
  exact Peeling.gone_eq_length_iff forward_subset_reachableNodes (peeled_peeling g)
    (length_reachableNodes_le g.dominance)

end LayerCheck.Digraph
