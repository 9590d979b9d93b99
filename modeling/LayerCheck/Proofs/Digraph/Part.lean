import LayerCheck.Digraph.Loop
import LayerCheck.Proofs.Digraph.Search
import Mathlib.Data.List.Sort

/-!
# Parts that no edge leaves

If a part of a graph holds the entry and no edge leaves it, a search from the entry does not see the
rest.  A search against the edges may leave the part, but it never comes back, so among what it
finds the nodes of the part stand in the order in which the part alone gives them.

* `Digraph.Part`: one graph is such a part of another one.
* `Digraph.Part.revPostOrder_eq`: the depth-first order is that of the part.
* `Digraph.Part.filter_naturalLoop`: natural loops are those of the part, but for nodes outside.
-/

namespace LayerCheck.Digraph

variable {m n : Nat}

/-- The nodes of `part` stand for nodes of `g`, the entry among them, and keep their order and all
the edges that leave them. -/
structure Part (part : Digraph m) (g : Digraph n) (f : Fin m → Fin n) : Prop where
  strictMono : StrictMono f
  entry : entry? n = ( entry? m).map f
  succ : ∀ v, g.succ (f v) = (part.succ v).map f

namespace Part

variable {part : Digraph m} {g : Digraph n} {f : Fin m → Fin n} {inside : Fin n → Bool}
  {v w : Fin m}

theorem injective (h : part.Part g f) : Function.Injective f := h.strictMono.injective

theorem mem_map_iff (h : part.Part g f) {l : List (Fin m)} : f v ∈ l.map f ↔ v ∈ l :=
  List.mem_map_of_injective h.injective

/-! ## Along the edges -/

/-- **The search runs alike on a part**, as long as the same nodes of the part are unseen. -/
theorem search_eq (h : part.Part g f) {unseen : List (Fin n)} {unseen' : List (Fin m)}
    (hn : unseen.Nodup) (hn' : unseen'.Nodup) (hu : ∀ v, f v ∈ unseen ↔ v ∈ unseen')
    (stack : List (Fin m × List (Fin m))) (finished : List (Fin m)) :
    g.search unseen (stack.map fun e => (f e.1, e.2.map f)) (finished.map f) =
      (part.search unseen' stack finished).map f := by
  fun_induction search part unseen' stack finished generalizing unseen with
  | case1 unseen' finished => rw [List.map_nil, search]
  | case2 unseen' finished v rest ih =>
    rw [List.map_cons, List.map_nil, search]
    exact ih hn hn' hu
  | case3 unseen' finished v w ws rest hw ih =>
    rw [List.map_cons, List.map_cons, search, if_pos ((hu w).mpr hw), h.succ]
    refine ih (hn.erase _) (hn'.erase _) fun x => ?_
    rw [hn.mem_erase_iff, hn'.mem_erase_iff, hu, h.injective.ne_iff]
  | case4 unseen' finished v w ws rest hw ih =>
    rw [List.map_cons, List.map_cons, search, if_neg fun hm => hw ((hu w).mp hm)]
    exact ih hn hn' hu

/-- **The depth-first order is that of the part.** -/
theorem revPostOrder_eq (h : part.Part g f) : g.revPostOrder = part.revPostOrder.map f := by
  rw [revPostOrder, revPostOrder, h.entry]
  cases entry? m with
  | none => rfl
  | some r =>
    have hn := (List.nodup_finRange n).erase (f r)
    have hn' := (List.nodup_finRange m).erase r
    have hu : ∀ v, f v ∈ (List.finRange n).erase (f r) ↔ v ∈ (List.finRange m).erase r := by
      intro v
      simp only [(List.nodup_finRange n).mem_erase_iff, (List.nodup_finRange m).mem_erase_iff,
        List.mem_finRange, h.injective.ne_iff]
    simp only [Option.map_some]
    rw [h.succ r]
    exact h.search_eq hn hn' hu [(r, part.succ r)] []

/-! ## Against the edges -/

/-- The nodes of the part stand in the order in which the part has them. -/
theorem filter_finRange (h : part.Part g f) (hi : ∀ u, inside u = true ↔ ∃ v, f v = u) :
    (List.finRange n).filter inside = (List.finRange m).map f := by
  have hl : ((List.finRange n).filter inside).Pairwise (· < ·) :=
    (List.pairwise_lt_finRange n).filter _
  have hr : ((List.finRange m).map f).Pairwise (· < ·) :=
    (List.pairwise_lt_finRange m).map f fun _ _ hlt => h.strictMono hlt
  refine hl.eq_of_mem_iff hr fun u => ?_
  simp [hi]

/-- What leads to a node of the part from inside leads to it in the part. -/
theorem filter_pred (h : part.Part g f) (hi : ∀ u, inside u = true ↔ ∃ v, f v = u) (v : Fin m) :
    (g.pred (f v)).filter inside = (part.pred v).map f := by
  have hcomm : (g.pred (f v)).filter inside =
      ((List.finRange n).filter inside).filter fun u => (g.succ u).contains (f v) := by
    rw [pred_eq, List.filter_filter, List.filter_filter]
    exact List.filter_congr fun u _ => Bool.and_comm _ _
  rw [hcomm, h.filter_finRange hi, List.filter_map, pred_eq]
  congr 1
  refine List.filter_congr fun u _ => ?_
  rw [Bool.eq_iff_iff, Function.comp_apply, List.contains_iff_mem, List.contains_iff_mem, h.succ,
    h.mem_map_iff]

/-- Edges from inside lead to the inside. -/
theorem inside_of_pred (h : part.Part g f) (hi : ∀ u, inside u = true ↔ ∃ v, f v = u)
    {u w : Fin n} (hu : u ∈ g.pred w) (hin : inside u = true) : inside w = true := by
  obtain ⟨v, rfl⟩ := (hi u).mp hin
  rw [mem_pred, h.succ] at hu
  obtain ⟨x, -, rfl⟩ := List.mem_map.mp hu
  exact (hi _).mpr ⟨x, rfl⟩

/-- **Against the edges the search finds the same nodes of the part**, since none is found from
outside. -/
theorem filter_gather (h : part.Part g f) (hi : ∀ u, inside u = true ↔ ∃ v, f v = u)
    {outside members queue : List (Fin n)} {outside' members' queue' : List (Fin m)}
    (ho : ∀ v, f v ∈ outside ↔ v ∈ outside') (hm : members.filter inside = members'.map f)
    (hq : queue.filter inside = queue'.map f) :
    (g.gather outside members queue).filter inside =
      (part.gather outside' members' queue').map f := by
  fun_induction gather g outside members queue generalizing outside' members' queue' with
  | case1 outside members =>
    obtain rfl := List.map_eq_nil_iff.mp hq.symm
    rw [gather]
    exact hm
  | case2 outside members v queue found =>
    rename_i ih
    by_cases hv : inside v = true
    · obtain ⟨x, rfl⟩ := (hi v).mp hv
      rw [List.filter_cons_of_pos hv] at hq
      obtain ⟨y, rest, rfl, hy, hr⟩ := List.map_eq_cons_iff.mp hq.symm
      obtain rfl := h.injective hy
      have hf : found.filter inside = ((part.pred y).filter (· ∈ outside')).map f := by
        show ((g.pred (f y)).filter (· ∈ outside)).filter inside = _
        rw [List.filter_comm, h.filter_pred hi, List.filter_map]
        congr 1
        exact List.filter_congr fun u _ => decide_eq_decide.mpr (ho u)
      have hmem : ∀ u, f u ∈ found ↔ u ∈ (part.pred y).filter (· ∈ outside') := by
        intro u
        have hu : f u ∈ found.filter inside ↔ f u ∈ found :=
          List.mem_filter.trans (and_iff_left ((hi _).mpr ⟨u, rfl⟩))
        rw [← hu, hf, h.mem_map_iff]
      rw [gather]
      refine ih (fun u => ?_) ?_ ?_
      · simp only [List.removeAll, List.mem_filter, ho, Bool.not_eq_true', List.elem_eq_mem,
          decide_eq_false_iff_not, hmem]
      · rw [List.filter_append, List.map_append, hm, hf]
      · rw [List.filter_append, List.map_append, hr, hf]
    · have hf : found.filter inside = [] := by
        refine List.filter_eq_nil_iff.mpr fun u hu hin => hv ?_
        exact h.inside_of_pred hi (List.mem_of_mem_filter hu) hin
      rw [List.filter_cons_of_neg hv] at hq
      refine ih (fun u => ?_) ?_ ?_
      · have hu : f u ∉ found := fun hu =>
          List.filter_eq_nil_iff.mp hf _ hu ((hi _).mpr ⟨u, rfl⟩)
        simp only [List.removeAll, List.mem_filter, ho, Bool.not_eq_true', List.elem_eq_mem,
          decide_eq_false_iff_not, hu, not_false_eq_true, and_true]
      · rw [List.filter_append, hf, List.append_nil, hm]
      · rw [List.filter_append, hf, List.append_nil, hq]

/-- **A natural loop at nodes of the part is that of the part, but for nodes outside.** -/
theorem filter_naturalLoop (h : part.Part g f) (hi : ∀ u, inside u = true ↔ ∃ v, f v = u)
    (v w : Fin m) :
    (g.naturalLoop (f v) (f w)).filter inside = (part.naturalLoop v w).map f := by
  have hin : ∀ u, inside (f u) = true := fun u => (hi _).mpr ⟨u, rfl⟩
  rw [naturalLoop, naturalLoop]
  by_cases hwv : w = v
  · rw [if_pos (congrArg f hwv), if_pos hwv]
    simp [hin]
  · rw [if_neg (h.injective.ne hwv), if_neg hwv]
    refine h.filter_gather hi (fun u => ?_) ?_ ?_
    · simp [h.injective.ne_iff]
    · simp [hin]
    · simp [hin]

end Part

end LayerCheck.Digraph
