import LayerCheck.Proofs.Lists
import Mathlib.Data.List.Infix
import Mathlib.Logic.Relation

/-!
# Paths from a root, and what lies on all of them

The nodes of a graph are positions, nodes or labels, depending on who looks; so paths and dominance
are defined for any relation.  A path is listed from its last node back to the root: what leads to
one of its nodes is then a tail of the list.

* `Trail`, `Dominates`, `ImmediateDominator`: the notions.
* `Trail.exists_nodup`: a path can be cut short until no node comes twice.
* `Trail.extend`: a path goes on along edges.
* `Trail.transfer`: related graphs have related paths.
-/

namespace LayerCheck

variable {α β : Type} {E : α → α → Prop} {r a b c : α} {π : List α}

/-- A path from `r`, listed from its last node back. -/
inductive Trail (E : α → α → Prop) (r : α) : List α → Prop
  | start : Trail E r [r]
  | step {u v : α} {π : List α} (h : Trail E r (u :: π)) (he : E u v) : Trail E r (v :: u :: π)

/-- Every path from `r` to `b` passes through `a`. -/
def Dominates (E : α → α → Prop) (r a b : α) : Prop := ∀ π, Trail E r (b :: π) → a ∈ b :: π

/-- The other nodes that every path to `b` passes through are passed through before `d`, which is
one of them. -/
structure ImmediateDominator (E : α → α → Prop) (r d b : α) : Prop where
  ne : d ≠ b
  dominates : Dominates E r d b
  closest : ∀ c, c ≠ b → Dominates E r c b → Dominates E r c d

namespace Trail

theorem reaches (h : Trail E r (b :: π)) : Relation.ReflTransGen E r b := by
  generalize hρ : b :: π = ρ at h
  induction h generalizing b π with
  | start =>
    rw [(List.cons.inj hρ).1]
  | step h he ih =>
    rw [(List.cons.inj hρ).1]
    exact (ih rfl).tail he

theorem exists_of_reaches (h : Relation.ReflTransGen E r b) : ∃ π, Trail E r (b :: π) := by
  induction h with
  | refl => exact ⟨[], .start⟩
  | tail _ he ih =>
    obtain ⟨π, hπ⟩ := ih
    exact ⟨_, hπ.step he⟩

/-- Whatever a path passes through on its way is left along an edge. -/
theorem exists_edge (h : Trail E r (b :: π)) (ha : a ∈ π) : ∃ c, E a c := by
  generalize hρ : b :: π = ρ at h
  induction h generalizing b π with
  | start =>
    obtain rfl := (List.cons.inj hρ).2
    cases ha
  | step h he ih =>
    obtain ⟨-, rfl⟩ := List.cons.inj hρ
    rcases List.mem_cons.mp ha with rfl | ha
    · exact ⟨_, he⟩
    · exact ih ha rfl

/-- What a path passes through it leads to on the way. -/
theorem exists_suffix (h : Trail E r π) (ha : a ∈ π) :
    ∃ ρ, a :: ρ <:+ π ∧ Trail E r (a :: ρ) := by
  induction h with
  | start =>
    rw [List.mem_singleton.mp ha]
    exact ⟨[], List.suffix_rfl, .start⟩
  | @step u v π h he ih =>
    rcases List.mem_cons.mp ha with rfl | ha
    · exact ⟨u :: π, List.suffix_rfl, h.step he⟩
    · obtain ⟨ρ, hs, hρ⟩ := ih ha
      exact ⟨ρ, hs.trans (List.suffix_cons _ _), hρ⟩

/-- **A path can be cut short until it meets no node twice.** -/
theorem exists_nodup (h : Trail E r (b :: π)) :
    ∃ ρ, ρ ⊆ π ∧ (b :: ρ).Nodup ∧ Trail E r (b :: ρ) := by
  generalize hσ : b :: π = σ at h
  induction h generalizing b π with
  | start =>
    rw [(List.cons.inj hσ).1]
    exact ⟨[], List.nil_subset _, List.nodup_singleton _, .start⟩
  | @step u v τ h he ih =>
    obtain ⟨rfl, rfl⟩ := List.cons.inj hσ
    obtain ⟨ρ, hs, hn, hρ⟩ := ih rfl
    have hsub : u :: ρ ⊆ u :: τ := List.cons_subset_cons u hs
    by_cases hb : b ∈ u :: ρ
    · -- the path has been at its end before
      obtain ⟨ρ', hsuf, hρ'⟩ := hρ.exists_suffix hb
      refine ⟨ρ', ?_, hsuf.sublist.nodup hn, hρ'⟩
      exact fun x hx => hsub (hsuf.subset (List.mem_cons_of_mem b hx))
    · exact ⟨u :: ρ, hsub, List.nodup_cons.mpr ⟨hb, hn⟩, hρ.step he⟩

/-- **A path goes on along edges**, through nodes that have what the targets of these edges have. -/
theorem extend {P : α → Prop} (h : Trail E r (b :: π))
    (hc : Relation.ReflTransGen (fun u v => E u v ∧ P v) b c) :
    ∃ ρ, Trail E r (c :: ρ) ∧ ∀ x ∈ c :: ρ, x ∈ b :: π ∨ P x := by
  induction hc with
  | refl => exact ⟨π, h, fun x hx => .inl hx⟩
  | @tail u v _ he ih =>
    obtain ⟨ρ, hρ, hall⟩ := ih
    refine ⟨u :: ρ, hρ.step he.1, fun x hx => ?_⟩
    rcases List.mem_cons.mp hx with rfl | hx
    · exact .inr he.2
    · exact hall x hx

/-- **Related graphs have related paths**, if whatever leads to a node is related to something that
leads to what the node is related to. -/
theorem transfer {E' : β → β → Prop} {r' : β} {R : α → β → Prop} (hr : ∀ b', R r b' → b' = r')
    (hE : ∀ {u v v' π}, Trail E r (u :: π) → E u v → R v v' → ∃ u', R u u' ∧ E' u' v')
    (h : Trail E r (b :: π)) {b' : β} (hb : R b b') :
    ∃ π', Trail E' r' (b' :: π') ∧ List.Forall₂ R (b :: π) (b' :: π') := by
  generalize hσ : b :: π = σ at h
  induction h generalizing b π b' with
  | start =>
    obtain ⟨rfl, rfl⟩ := List.cons.inj hσ
    obtain rfl := hr b' hb
    exact ⟨[], .start, .cons hb .nil⟩
  | step h he ih =>
    obtain ⟨rfl, rfl⟩ := List.cons.inj hσ
    obtain ⟨u', hu, he'⟩ := hE h he hb
    obtain ⟨π', hπ', hall⟩ := ih hu rfl
    exact ⟨u' :: π', hπ'.step he', .cons hb hall⟩

end Trail

namespace Dominates

theorem refl (b : α) : Dominates E r b b := fun _ _ => List.mem_cons_self

/-- What dominates a node dominates whatever leads to it. -/
theorem of_edge (h : Dominates E r a b) (hne : a ≠ b) (he : E c b) : Dominates E r a c := by
  intro π hπ
  rcases List.mem_cons.mp (h _ (hπ.step he)) with hb | ha
  · exact absurd hb hne
  · exact ha

/-- Dominance is carried over between related graphs. -/
theorem transfer {E' : β → β → Prop} {r' : β} {R : α → β → Prop} (hr : ∀ b', R r b' → b' = r')
    (hE : ∀ {u v v' π}, Trail E r (u :: π) → E u v → R v v' → ∃ u', R u u' ∧ E' u' v')
    {a' b' : β} (ha : ∀ x, R x a' → x = a) (hb : R b b') (h : Dominates E' r' a' b') :
    Dominates E r a b := by
  intro π hπ
  obtain ⟨π', hπ', hall⟩ := hπ.transfer hr hE hb
  obtain ⟨x, hx, hxa⟩ := hall.exists_of_mem_right (h π' hπ')
  rw [← ha x hxa]
  exact hx

end Dominates

end LayerCheck
