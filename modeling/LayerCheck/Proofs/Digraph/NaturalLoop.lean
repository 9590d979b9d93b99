import LayerCheck.Digraph.Loop
import LayerCheck.Proofs.Digraph.Search

/-!
# Natural loops are closed against the edges

A natural loop is gathered backwards from the source of its back edge, and the search stops at the
header.  `Gathering` is what a round of the search keeps: a member that is not the header and does
not wait in the queue has all its predecessors among the members.

* `Digraph.mem_naturalLoop_of_pred`: whatever leads to a member other than the header is a member.
-/

namespace LayerCheck.Digraph

variable {n : Nat} {g : Digraph n} {h u v : Fin n} {outside members queue : List (Fin n)}

/-- What gathering the loop of the header `h` keeps. -/
structure Gathering (g : Digraph n) (h : Fin n) (outside members queue : List (Fin n)) :
    Prop where
  covered : ∀ v, v ∉ outside → v ∈ members
  closed : ∀ v ∈ members, v ≠ h → v ∉ queue → ∀ u ∈ g.pred v, u ∈ members

theorem Gathering.step {found : List (Fin n)} (hf : ∀ u, u ∈ found ↔ u ∈ g.pred v ∧ u ∈ outside)
    (hg : g.Gathering h outside members (v :: queue)) :
    g.Gathering h (outside.removeAll found) (members ++ found) (queue ++ found) where
  covered u hu := by
    rw [List.mem_append]
    by_cases ho : u ∈ outside
    · refine Or.inr ?_
      by_contra hn
      exact hu (List.mem_filter.mpr ⟨ho, by simpa using hn⟩)
    · exact Or.inl (hg.covered u ho)
  closed x hx hne hq u hu := by
    rw [List.mem_append, not_or] at hq
    have hm : x ∈ members := by
      rcases List.mem_append.mp hx with hm | hf
      · exact hm
      · exact absurd hf hq.2
    rw [List.mem_append]
    by_cases hxv : x = v
    · -- the node that leaves the queue: its predecessors from outside have just been found
      subst hxv
      by_cases ho : u ∈ outside
      · exact Or.inr ((hf u).mpr ⟨hu, ho⟩)
      · exact Or.inl (hg.covered u ho)
    · exact Or.inl (hg.closed x hm hne (by simp [hxv, hq.1]) u hu)

theorem gathering_gather (hg : g.Gathering h outside members queue) :
    ∃ outside', g.Gathering h outside' (g.gather outside members queue) [] := by
  fun_induction gather g outside members queue with
  | case1 outside members => exact ⟨outside, hg⟩
  | case2 outside members v queue found ih =>
    have hf : ∀ u, u ∈ found ↔ u ∈ g.pred v ∧ u ∈ outside := fun u => by simp [found]
    exact ih (hg.step hf)

/-- **A natural loop is left against the edges only at its header.** -/
theorem mem_naturalLoop_of_pred {s : Fin n} (hv : v ∈ g.naturalLoop h s) (hne : v ≠ h)
    (hu : u ∈ g.pred v) : u ∈ g.naturalLoop h s := by
  rw [naturalLoop] at hv ⊢
  by_cases hs : s = h
  · rw [if_pos hs, List.mem_singleton] at hv
    exact absurd hv hne
  · rw [if_neg hs] at hv ⊢
    have hstart : g.Gathering h ((List.finRange n).filter fun v => v ≠ h ∧ v ≠ s) [h, s] [s] := {
      covered := by
        intro x hx
        by_contra hc
        simp only [List.mem_cons, List.not_mem_nil, or_false, not_or] at hc
        exact hx (List.mem_filter.mpr ⟨List.mem_finRange x, by simpa using hc⟩)
      closed := by
        intro x hx hxh hxs
        simp only [List.mem_cons, List.not_mem_nil, or_false] at hx hxs
        rcases hx with rfl | rfl
        · exact absurd rfl hxh
        · exact absurd rfl hxs }
    obtain ⟨outside', hend⟩ := gathering_gather hstart
    exact hend.closed v hv hne (by simp) u hu

end LayerCheck.Digraph
