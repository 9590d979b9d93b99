import LayerCheck.Proofs.Digraph.Dominance
import LayerCheck.Proofs.Flow.Paths
import Mathlib.Data.Fin.Tuple.Take

/-!
# Dominators of labels

What the flow graph of an implementation says of dominators is what the jumps between its labels
say.  Blocks may jump to labels that name no block; no path goes on from there, so that they lie on
no path to a block.

* `FlowGraph.dominates_iff`, `FlowGraph.idom?_eq_some_iff`: dominance as a property of all paths.
* `Implementation.Dominates`: the notion, also for an implementation without blocks.
* `Implementation.dominators_exact`: all that the flow graph says of dominators.
-/

namespace LayerCheck

namespace FlowGraph

variable {i : Implementation} {a b d e : String} {r u v : Fin i.flow.size}

/-- What every path to a block passes through is a block. -/
theorem mem_labels_of_dominates (hb : b ∈ i.labels) (hr : Relation.ReflTransGen i.Edge e b)
    (h : Dominates i.Edge e a b) : a ∈ i.labels := by
  obtain ⟨π, hπ⟩ := Trail.exists_of_reaches hr
  rcases List.mem_cons.mp (h π hπ) with rfl | ha
  · exact hb
  · obtain ⟨c, he⟩ := hπ.exists_edge ha
    exact mem_labels_of_edge he

theorem dominates_graph_iff (hn : i.labels.Nodup) :
    Dominates i.flow.graph.Edge r u v ↔
      Dominates i.Edge (i.flow.label r) (i.flow.label u) (i.flow.label v) := by
  constructor
  · refine Dominates.transfer (R := fun l v => i.flow.label v = l) ?_ ?_ ?_ rfl
    · exact fun w hw => label_injective hn hw
    · intro x y w π _ he hw
      obtain ⟨w', rfl⟩ := exists_label_eq (mem_labels_of_edge he)
      exact ⟨w', rfl, (edge_graph_iff hn).mpr (hw ▸ he)⟩
    · exact fun x hx => hx.symm
  · refine Dominates.transfer (R := fun v l => i.flow.label v = l) ?_ ?_ ?_ rfl
    · exact fun l hl => hl.symm
    · intro x y l π _ he hl
      exact ⟨_, rfl, hl ▸ (edge_graph_iff hn).mp he⟩
    · exact fun x hx => label_injective hn hx

theorem exists_entry? (he : i.entryLabel? = some e) :
    ∃ r, Digraph.entry? i.flow.size = some r ∧ i.flow.label r = e := by
  rw [← entry?_flow, Option.map_eq_some_iff] at he
  exact he

/-- **A block dominates a reachable block exactly if all paths to it pass through the other.** -/
theorem dominates_iff (hn : i.labels.Nodup) (he : i.entryLabel? = some e) (ha : a ∈ i.labels)
    (hb : b ∈ i.labels) (hr : Relation.ReflTransGen i.Edge e b) :
    i.flow.dominates a b = true ↔ Dominates i.Edge e a b := by
  obtain ⟨r, hroot, rfl⟩ := exists_entry? he
  obtain ⟨u, rfl⟩ := exists_label_eq ha
  obtain ⟨v, rfl⟩ := exists_label_eq hb
  rw [dominates, (node?_eq_some_iff hn).mpr rfl, (node?_eq_some_iff hn).mpr rfl,
    ← dominates_graph_iff hn, i.flow.dominance_eq]
  exact Digraph.dominates_dominance_iff hroot ((reaches_graph_iff hn).mpr hr)

theorem dominates_iff_eq (hn : i.labels.Nodup) (he : i.entryLabel? = some e) (ha : a ∈ i.labels)
    (hb : b ∈ i.labels)
    (h : ¬ Relation.ReflTransGen i.Edge e a ∨ ¬ Relation.ReflTransGen i.Edge e b) :
    i.flow.dominates a b = true ↔ a = b := by
  obtain ⟨r, hroot, rfl⟩ := exists_entry? he
  obtain ⟨u, rfl⟩ := exists_label_eq ha
  obtain ⟨v, rfl⟩ := exists_label_eq hb
  rw [← reaches_graph_iff hn, ← reaches_graph_iff hn] at h
  rw [dominates, (node?_eq_some_iff hn).mpr rfl, (node?_eq_some_iff hn).mpr rfl,
    i.flow.dominance_eq]
  refine (Digraph.dominates_dominance_outside hroot h).trans ?_
  exact ⟨congrArg i.flow.label, label_injective hn⟩

theorem idom?_label (hn : i.labels.Nodup) (v : Fin i.flow.size) :
    i.flow.idom? (i.flow.label v) = (i.flow.graph.dominance.idom? v).map i.flow.label := by
  rw [idom?, (node?_eq_some_iff hn).mpr rfl, i.flow.dominance_eq]
  rfl

/-- **The immediate dominator of a reachable block is the one among all paths.** -/
theorem idom?_eq_some_iff (hn : i.labels.Nodup) (he : i.entryLabel? = some e)
    (hb : b ∈ i.labels) :
    i.flow.idom? b = some d ↔
      Relation.ReflTransGen i.Edge e b ∧ ImmediateDominator i.Edge e d b := by
  obtain ⟨r, hroot, rfl⟩ := exists_entry? he
  obtain ⟨v, rfl⟩ := exists_label_eq hb
  have hiff : ∀ u, ImmediateDominator i.flow.graph.Edge r u v ∧ i.flow.graph.Reaches r v ↔
      ImmediateDominator i.Edge (i.flow.label r) (i.flow.label u) (i.flow.label v) ∧
        Relation.ReflTransGen i.Edge (i.flow.label r) (i.flow.label v) := by
    intro u
    rw [reaches_graph_iff hn]
    refine and_congr_left fun hr => ⟨fun h => ?_, fun h => ?_⟩
    · refine ⟨fun hl => h.ne (label_injective hn hl), (dominates_graph_iff hn).mp h.dominates, ?_⟩
      intro c hc hdom
      obtain ⟨w, rfl⟩ := exists_label_eq (mem_labels_of_dominates hb hr hdom)
      exact (dominates_graph_iff hn).mp
        (h.closest w (fun hw => hc (hw ▸ rfl)) ((dominates_graph_iff hn).mpr hdom))
    · refine ⟨fun hw => h.ne (hw ▸ rfl), (dominates_graph_iff hn).mpr h.dominates, ?_⟩
      intro w hw hdom
      exact (dominates_graph_iff hn).mpr
        (h.closest _ (fun hl => hw (label_injective hn hl)) ((dominates_graph_iff hn).mp hdom))
  rw [idom?_label hn, Option.map_eq_some_iff]
  simp only [Digraph.idom?_dominance_eq_some_iff hroot]
  constructor
  · intro hx
    obtain ⟨u, ⟨hr, hi⟩, rfl⟩ := hx
    exact ((hiff u).mp ⟨hi, hr⟩).symm
  · intro hx
    obtain ⟨hr, hi⟩ := hx
    obtain ⟨u, rfl⟩ := exists_label_eq (mem_labels_of_dominates hb hr hi.dominates)
    exact ⟨u, ((hiff u).mpr ⟨hi, hr⟩).symm, rfl⟩

theorem isSome_idom?_iff (hn : i.labels.Nodup) (he : i.entryLabel? = some e) (hb : b ∈ i.labels) :
    (i.flow.idom? b).isSome = true ↔ Relation.ReflTransGen i.Edge e b ∧ b ≠ e := by
  obtain ⟨r, hroot, rfl⟩ := exists_entry? he
  obtain ⟨v, rfl⟩ := exists_label_eq hb
  rw [idom?_label hn, Option.isSome_map, Digraph.isSome_idom?_dominance_iff hroot,
    reaches_graph_iff hn]
  exact and_congr_right fun _ => not_congr ⟨congrArg i.flow.label, label_injective hn⟩

end FlowGraph

namespace Implementation

variable {i : Implementation} {a b e : String}

theorem reachable_iff (he : i.entryLabel? = some e) {l : String} :
    i.Reachable l ↔ Relation.ReflTransGen i.Edge e l := by
  rw [Reachable, he]
  simp

/-- Every path from the entry to `b` passes through `a`. -/
protected def Dominates (i : Implementation) (a b : String) : Prop :=
  ∀ e, i.entryLabel? = some e → LayerCheck.Dominates i.Edge e a b

theorem dominates_iff_of_entry (he : i.entryLabel? = some e) :
    i.Dominates a b ↔ LayerCheck.Dominates i.Edge e a b := by
  constructor
  · exact fun h => h e he
  · intro h e' he'
    obtain rfl := Option.some_inj.mp (he.symm.trans he')
    exact h

/-- **Dominators are found exactly.**  As many rounds as there are reachable blocks are enough for a
further one to change nothing.  With what is found then, the immediate dominator is defined for the
reachable blocks other than the entry, and it is the one block that satisfies its definition along
all paths; one reachable block dominates another if every path to it passes through the first, and
an unreachable block neither dominates another block nor is dominated by one. -/
theorem dominators_exact (hn : i.labels.Nodup) (he : i.entryLabel? = some e) :
    (let g := i.flow.graph
      let preds := Dominance.predsOf g g.revPostOrder
      let rounds := (DomMap.round preds)^[g.revPostOrder.length]
        (DomMap.start g.revPostOrder.length)
      i.flow.dominance.doms = rounds ∧ DomMap.round preds rounds = rounds) ∧
    (∀ b ∈ i.labels,
      ((i.flow.idom? b).isSome = true ↔ i.Reachable b ∧ b ≠ e) ∧
      ∀ d, i.flow.idom? b = some d →
        d ∈ i.labels ∧ ∀ d', ImmediateDominator i.Edge e d' b ↔ d' = d) ∧
    (∀ a ∈ i.labels, ∀ b ∈ i.labels, i.Reachable a → i.Reachable b →
      (i.flow.dominates a b = true ↔ Dominates i.Edge e a b)) ∧
    ∀ a ∈ i.labels, ∀ b ∈ i.labels, ¬ i.Reachable a ∨ ¬ i.Reachable b →
      (i.flow.dominates a b = true ↔ a = b) := by
  simp only [reachable_iff he]
  refine ⟨?_, fun b hb => ⟨FlowGraph.isSome_idom?_iff hn he hb, fun d hd => ?_⟩,
    fun a ha b hb _ hr => FlowGraph.dominates_iff hn he ha hb hr,
    fun a ha b hb h => FlowGraph.dominates_iff_eq hn he ha hb h⟩
  · obtain ⟨r, hroot, -⟩ := FlowGraph.exists_entry? he
    have hl := Digraph.lined_revPostOrder (g := i.flow.graph) hroot
    have ho := Dominance.ordered_predPositions hl
    rw [i.flow.dominance_eq]
    exact ⟨DomMap.ofPredecessors_eq ho, DomMap.round_iterate ho⟩
  · obtain ⟨hr, hi⟩ := (FlowGraph.idom?_eq_some_iff hn he hb).mp hd
    refine ⟨FlowGraph.mem_labels_of_dominates hb hr hi.dominates, fun d' => ⟨fun hi' => ?_, ?_⟩⟩
    · have hd' := (FlowGraph.idom?_eq_some_iff hn he hb).mpr ⟨hr, hi'⟩
      rw [hd, Option.some_inj] at hd'
      exact hd'.symm
    · intro h
      rw [h]
      exact hi

end Implementation

namespace Counter

/-- A loop with two entries, a block that jumps to itself and to no block, and a block that nothing
leads to. -/
def tangled : Implementation where
  name := "M"
  procedure := "M"
  blocks :=
    [{ label := "a", transfer := .goto ["b", "c"] },
      { label := "b", transfer := .goto ["c"] },
      { label := "c", transfer := .goto ["b", "d"] },
      { label := "d", transfer := .goto ["d", "x"] },
      { label := "u", transfer := .goto ["d"] }]

theorem dominators_exact_tangled :
    tangled.labels.Nodup ∧ tangled.entryLabel? = some "a" ∧
      ImmediateDominator tangled.Edge "a" "c" "d" ∧ ¬ tangled.Reachable "u" := by
  obtain ⟨-, hidom, -, -⟩ := Implementation.dominators_exact (i := tangled) (e := "a")
    (by decide) rfl
  have hd : tangled.flow.idom? "d" = some "c" := by cbv
  have hu : tangled.flow.idom? "u" = none := by cbv
  refine ⟨by decide, rfl, (((hidom "d" (by decide)).2 "c" hd).2 "c").mpr rfl, fun hr => ?_⟩
  have hs := (hidom "u" (by decide)).1.mpr ⟨hr, by decide⟩
  rw [hu] at hs
  cases hs

end Counter

end LayerCheck
