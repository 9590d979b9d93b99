import LayerCheck.Proofs.Digraph.Loops

/-!
# Circuits

A circuit is a path that an edge leads back from its end to its beginning.  If forward edges close
no circuit, then each circuit has a node that no forward edge of the circuit leads to; all edges of
the circuit into this node are back edges, so it dominates their sources, and from there dominance
goes back against the edges all around.  A circuit of forward edges has no such node, since one that
dominates the whole circuit dominates what leads to it.

* `Circuit`: the notion.
* `Circuit.forall_mem`: what is passed on against the edges is passed on all around.
* `Circuit.exists_dominator`, `forward_acyclic`: a dominator on each circuit, and no circuit of
  forward edges, imply each other.
* `Trail.dominates_of_edge`: edges that lead back on a path lead to dominators.
-/

namespace LayerCheck

variable {α : Type} {E F : α → α → Prop} {P : α → Prop} {r a b v : α} {π c : List α}

/-- Among some elements one comes first, if no element comes before itself. -/
theorem exists_first_of_acyclic (ha : ∀ v, ¬ Relation.TransGen F v v) (hc : c ≠ []) :
    ∃ m ∈ c, ∀ u ∈ c, ¬ Relation.TransGen F u m := by
  induction c with
  | nil => exact absurd rfl hc
  | cons a c ih =>
    by_cases hnil : c = []
    · refine ⟨a, List.mem_cons_self, fun u hu => ?_⟩
      rw [hnil, List.mem_singleton] at hu
      exact hu ▸ ha a
    · obtain ⟨m, hm, hfirst⟩ := ih hnil
      by_cases ham : Relation.TransGen F a m
      · refine ⟨a, List.mem_cons_self, fun u hu => ?_⟩
        rcases List.mem_cons.mp hu with rfl | hu
        · exact ha u
        · exact fun hua => hfirst u hu (hua.trans ham)
      · exact ⟨m, List.mem_cons_of_mem a hm, List.forall_mem_cons.mpr ⟨ham, hfirst⟩⟩

namespace Trail

theorem root_mem (h : Trail E r π) : r ∈ π := by
  induction h with
  | start => exact List.mem_singleton_self r
  | step _ _ ih => exact List.mem_cons_of_mem _ ih

theorem mono (hEF : ∀ a b, E a b → F a b) (h : Trail E r π) : Trail F r π := by
  induction h with
  | start => exact .start
  | step _ he ih => exact ih.step (hEF _ _ he)

/-- Whatever a path comes to after its root it comes to along an edge. -/
theorem eq_or_exists_edge (h : Trail E r π) (hv : v ∈ π) : v = r ∨ ∃ u ∈ π, E u v := by
  induction h with
  | start => exact .inl (List.mem_singleton.mp hv)
  | @step u w π _ he ih =>
    rcases List.mem_cons.mp hv with rfl | hv
    · exact .inr ⟨u, List.mem_cons_of_mem _ List.mem_cons_self, he⟩
    · exact (ih hv).imp_right fun ⟨x, hx, hxv⟩ => ⟨x, List.mem_cons_of_mem w hx, hxv⟩

/-- What is passed on against the edges of a path is passed on from its end to all of it. -/
theorem forall_mem (h : Trail E r (b :: π))
    (hP : ∀ u ∈ b :: π, ∀ v ∈ b :: π, E u v → P v → P u) (hb : P b) : ∀ v ∈ b :: π, P v := by
  generalize hσ : b :: π = σ at h
  induction h generalizing b π with
  | start =>
    obtain ⟨rfl, rfl⟩ := List.cons.inj hσ
    exact fun v hv => List.mem_singleton.mp hv ▸ hb
  | @step u w τ h he ih =>
    obtain ⟨rfl, rfl⟩ := List.cons.inj hσ
    have hu : P u :=
      hP u (List.mem_cons_of_mem b List.mem_cons_self) b List.mem_cons_self he hb
    have hrest := ih (fun x hx y hy =>
      hP x (List.mem_cons_of_mem b hx) y (List.mem_cons_of_mem b hy)) hu rfl
    exact List.forall_mem_cons.mpr ⟨hb, hrest⟩

/-- What follows a node on a path is a path from that node. -/
theorem of_append {σ ρ : List α} (h : Trail E r (σ ++ a :: ρ)) : Trail E a (σ ++ [a]) := by
  induction σ with
  | nil => exact .start
  | cons x σ ih =>
    cases σ with
    | nil =>
      cases h with
      | step _ he => exact .step .start he
    | cons y σ =>
      cases h with
      | step h he => exact .step (ih h) he

end Trail

/-- A path that an edge leads back to its beginning, listed from its last node back. -/
inductive Circuit (E : α → α → Prop) : List α → Prop
  | close {r b : α} {π : List α} (h : Trail E r (b :: π)) (he : E b r) : Circuit E (b :: π)

namespace Circuit

theorem mono (hEF : ∀ a b, E a b → F a b) (h : Circuit E c) : Circuit F c := by
  cases h with
  | close h he => exact .close (h.mono hEF) (hEF _ _ he)

theorem ne_nil (h : Circuit E c) : c ≠ [] := by
  cases h with
  | close h he => exact List.cons_ne_nil _ _

/-- Each node of a circuit is led to by an edge from one of its nodes. -/
theorem exists_edge (h : Circuit E c) (hv : v ∈ c) : ∃ u ∈ c, E u v := by
  cases h with
  | close h he =>
    rcases h.eq_or_exists_edge hv with rfl | hu
    · exact ⟨_, List.mem_cons_self, he⟩
    · exact hu

/-- **What is passed on against the edges of a circuit is passed on all around.** -/
theorem forall_mem (h : Circuit E c) (hP : ∀ u ∈ c, ∀ v ∈ c, E u v → P v → P u) (ha : a ∈ c)
    (hPa : P a) : ∀ v ∈ c, P v := by
  cases h with
  | @close r b π h he =>
    -- first back to the root, then once more from the end, which leads to the root
    obtain ⟨ρ, hsuf, hρ⟩ := h.exists_suffix ha
    have hr : P r := hρ.forall_mem
      (fun u hu v hv => hP u (hsuf.subset hu) v (hsuf.subset hv)) hPa r hρ.root_mem
    exact h.forall_mem hP (hP b List.mem_cons_self r h.root_mem he hr)

/-- A node that leads to itself lies on a circuit that meets no node twice. -/
theorem exists_nodup (h : Relation.TransGen E v v) : ∃ c, c.Nodup ∧ Circuit E c := by
  obtain ⟨u, hvu, he⟩ := Relation.TransGen.tail'_iff.mp h
  obtain ⟨π, hπ⟩ := Trail.exists_of_reaches hvu
  obtain ⟨ρ, -, hn, hρ⟩ := hπ.exists_nodup
  exact ⟨u :: ρ, hn, .close hρ he⟩

/-- **If forward edges close no circuit, each circuit has a node that dominates it.** -/
theorem exists_dominator (h : Circuit E c) (hr : ∀ v ∈ c, Relation.ReflTransGen E r v)
    (ha : ∀ v, ¬ Relation.TransGen (Forward E r) v v) : ∃ d ∈ c, ∀ v ∈ c, Dominates E r d v := by
  obtain ⟨d, hd, hfirst⟩ := exists_first_of_acyclic ha h.ne_nil
  refine ⟨d, hd, h.forall_mem (fun u hu v _ he hv => ?_) hd (.refl d)⟩
  by_cases hdv : d = v
  · subst hdv
    by_contra hnot
    exact hfirst u hu (.single ⟨hr u hu, he, hnot⟩)
  · exact hv.of_edge hdv he

end Circuit

/-- **Without circuits of forward edges, an edge back to a node of a path that comes to no node
twice leads to a dominator.**  The circuit that the edge closes has a node that dominates it, and
this node is on the path to where the circuit begins. -/
theorem Trail.dominates_of_edge (h : Trail E r (b :: π)) (hn : (b :: π).Nodup) (ha : a ∈ b :: π)
    (he : E b a) (hacyclic : ∀ v, ¬ Relation.TransGen (Forward E r) v v) :
    Dominates E r a b := by
  obtain ⟨ρ, ⟨σ, hσ⟩, hρ⟩ := h.exists_suffix ha
  rw [← hσ] at h hn ha
  have hcircuit : Circuit E (σ ++ [a]) ∧ b ∈ σ ++ [a] := by
    have htrail := h.of_append
    cases σ with
    | nil =>
      obtain ⟨rfl, -⟩ := List.cons.inj hσ
      exact ⟨.close htrail he, List.mem_singleton_self a⟩
    | cons x σ =>
      obtain ⟨rfl, -⟩ := List.cons.inj hσ
      exact ⟨.close htrail he, List.mem_cons_self⟩
  have hreach : ∀ v ∈ σ ++ [a], Relation.ReflTransGen E r v := by
    intro v hv
    have hv' : v ∈ σ ++ a :: ρ := by
      rcases List.mem_append.mp hv with hv | hv
      · exact List.mem_append_left _ hv
      · exact List.mem_append_right _ (List.mem_singleton.mp hv ▸ List.mem_cons_self)
    obtain ⟨τ, -, hτ⟩ := h.exists_suffix hv'
    exact hτ.reaches
  obtain ⟨d, hd, hdom⟩ := hcircuit.1.exists_dominator hreach hacyclic
  have hda : d ∈ a :: ρ := hdom a (List.mem_append_right _ List.mem_cons_self) ρ hρ
  rcases List.mem_append.mp hd with hd | hd
  · exact absurd hda ((List.nodup_append.mp hn).2.2 d hd d · rfl)
  · rw [← List.mem_singleton.mp hd]
    exact hdom b hcircuit.2

/-- **If each circuit that meets no node twice has a node that dominates it, forward edges close no
circuit.** -/
theorem forward_acyclic (hd : ∀ c, c.Nodup → Circuit E c →
      (∀ v ∈ c, Relation.ReflTransGen E r v) → ∃ d ∈ c, ∀ v ∈ c, Dominates E r d v) (v : α) :
    ¬ Relation.TransGen (Forward E r) v v := by
  intro hv
  obtain ⟨c, hn, hc⟩ := Circuit.exists_nodup hv
  have hr : ∀ x ∈ c, Relation.ReflTransGen E r x := by
    intro x hx
    obtain ⟨u, -, hu, he, -⟩ := hc.exists_edge hx
    exact hu.tail he
  obtain ⟨d, hdc, hdom⟩ := hd c hn (hc.mono fun _ _ hf => hf.2.1) hr
  obtain ⟨u, huc, -, -, hnot⟩ := hc.exists_edge hdc
  exact hnot (hdom u huc)

end LayerCheck
