import LayerCheck.Proofs.Flow.Loops

/-!
# Reducible implementations

An implementation is reducible if each circuit of its reachable blocks is entered at one block,
which then dominates the others.  The test for it counts the forward jumps into every block and
takes away blocks that none is left into; it never counts down from zero.

* `FlowGraph.isReducible_iff_forall`: the test, also for an implementation without blocks.
* `Implementation.reducibility_exact`: the test and the circuits.
-/

namespace LayerCheck

variable {i : Implementation}

namespace FlowGraph

theorem isReducible_iff_forall (hn : i.labels.Nodup) :
    i.flow.isReducible = true ↔
      ∀ e, i.entryLabel? = some e → ∀ l, ¬ Relation.TransGen (Forward i.Edge e) l l := by
  cases he : i.entryLabel? with
  | some e => simpa using isReducible_iff hn he
  | none =>
    have hnone : Digraph.entry? i.flow.size = none := by
      rw [← Option.map_eq_none_iff, entry?_flow, he]
    refine iff_of_true ?_ fun e h => nomatch h
    rw [isReducible, i.flow.dominance_eq]
    exact Digraph.isReducible_of_entry?_eq_none hnone

end FlowGraph

namespace Implementation

/-- **Reducibility is decided exactly.**  The test runs without counting down from zero until no
block is ready to be taken away, and compares how many are gone with how many are reachable.  It
holds exactly if each circuit of reachable blocks has a block that dominates all its blocks, and
for this it makes no difference whether a circuit may meet a block more than once. -/
theorem reducibility_exact (hn : i.labels.Nodup) :
    (∃ s, (i.flow.graph.peeling i.flow.dominance).run? (i.flow.graph.forward i.flow.dominance)
        i.flow.size = some s ∧ s.ready = [] ∧
      i.flow.isReducible = decide (s.gone = (Digraph.reachableNodes i.flow.dominance).length)) ∧
    (i.flow.isReducible = true ↔ ∀ c, Circuit i.Edge c → (∀ l ∈ c, i.Reachable l) →
      ∃ d ∈ c, ∀ l ∈ c, i.Dominates d l) ∧
    (i.flow.isReducible = true ↔ ∀ c, c.Nodup → Circuit i.Edge c → (∀ l ∈ c, i.Reachable l) →
      ∃ d ∈ c, ∀ l ∈ c, i.Dominates d l) := by
  have hall : i.flow.isReducible = true → ∀ c, Circuit i.Edge c → (∀ l ∈ c, i.Reachable l) →
      ∃ d ∈ c, ∀ l ∈ c, i.Dominates d l := by
    intro hred c hc hr
    obtain ⟨l, hl⟩ := List.exists_mem_of_ne_nil c hc.ne_nil
    obtain ⟨e, he, -⟩ := hr l hl
    simp only [reachable_iff he] at hr
    simp only [dominates_iff_of_entry he]
    exact hc.exists_dominator hr ((FlowGraph.isReducible_iff_forall hn).mp hred e he)
  have hsimple : (∀ c, c.Nodup → Circuit i.Edge c → (∀ l ∈ c, i.Reachable l) →
      ∃ d ∈ c, ∀ l ∈ c, i.Dominates d l) → i.flow.isReducible = true := by
    intro hd
    refine (FlowGraph.isReducible_iff_forall hn).mpr fun e he => forward_acyclic ?_
    simp only [reachable_iff he, dominates_iff_of_entry he] at hd
    exact hd
  refine ⟨?_, ⟨hall, fun h => hsimple fun c _ => h c⟩, fun h c _ => hall h c, hsimple⟩
  rw [FlowGraph.isReducible, i.flow.dominance_eq]
  exact Digraph.run?_peeling i.flow.graph

end Implementation

namespace Counter

/-- The loop with two entries is a circuit that none of its blocks dominates. -/
theorem reducibility_exact_tangled :
    tangled.labels.Nodup ∧ tangled.flow.isReducible = false := by
  have hab : tangled.Edge "a" "b" := by decide
  have hac : tangled.Edge "a" "c" := by decide
  have hbc : tangled.Edge "b" "c" := by decide
  have hcb : tangled.Edge "c" "b" := by decide
  have hcircuit : Circuit tangled.Edge ["c", "b"] := .close (.step .start hbc) hcb
  have hreach : ∀ l ∈ ["c", "b"], tangled.Reachable l := by
    simp only [List.forall_mem_cons, List.not_mem_nil, false_implies, implies_true, and_true]
    exact ⟨⟨"a", rfl, .single hac⟩, "a", rfl, .single hab⟩
  obtain ⟨-, hexact, -⟩ := Implementation.reducibility_exact (i := tangled) (by decide)
  refine ⟨by decide, Bool.eq_false_iff.mpr fun hred => ?_⟩
  obtain ⟨d, hd, hdom⟩ := hexact.mp hred _ hcircuit hreach
  have hc := hdom "c" (by decide) "a" rfl ["a"] (.step .start hac)
  have hb := hdom "b" (by decide) "a" rfl ["a"] (.step .start hab)
  -- what lies on both ways is the entry, which is not on the circuit
  simp only [List.mem_cons, List.not_mem_nil, or_false] at hd hc hb
  rcases hd with rfl | rfl
  · exact absurd hb (by decide)
  · exact absurd hc (by decide)

end Counter

end LayerCheck
