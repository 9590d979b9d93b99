import LayerCheck.Contract
import LayerCheck.Proofs.Table

/-!
# The contracts of a layer

Every copy adds the invariants of its origin to the contract of the procedure that it implements.
Clauses are only ever appended, so what a procedure demands and grants at the layer can be read off
the copies, whatever stood in its contract before.

* `Copies.activeLoop?_eq_some_iff`, `Setting.mem_activeClauses`: the look-ups behind what the layer
  adds, one by one.
* `Setting.get?_contracts`: the contract of a procedure at the layer.
* `Setting.exists_contract`: procedures keep their formals.
-/

namespace LayerCheck

namespace Procedure

theorem strengthen_nil (q : Procedure) : q.strengthen [] [] = q := by
  rw [strengthen, List.append_nil, List.append_nil]

theorem strengthen_strengthen (q : Procedure) (rs es rs' es' : List Clause) :
    (q.strengthen rs es).strengthen rs' es' = q.strengthen (rs ++ rs') (es ++ es') := by
  simp only [strengthen, List.append_assoc]

end Procedure

/-- The loop of the layer that a block heads, look-up by look-up. -/
theorem Copies.activeLoop?_eq_some_iff {c : Copies} {f : Facts} {l : Layer} {b : BlockRef}
    {loop : YieldingLoop} : c.activeLoop? f l b = some loop ↔ ∃ source,
      c.blocks.get? b = some source ∧ f.loops.get? source = some loop ∧ l ∈ loop.layers := by
  rw [activeLoop?, Option.filter_eq_some_iff, yieldingLoop?, Option.bind_eq_some_iff, source?,
    decide_eq_true_iff]
  constructor
  · intro h
    obtain ⟨⟨source, hs, hl⟩, hm⟩ := h
    exact ⟨source, hs, hl, hm⟩
  · intro h
    obtain ⟨source, hs, hl, hm⟩ := h
    exact ⟨⟨source, hs, hl⟩, hm⟩

namespace Setting

variable (s : Setting) (l : Layer) (plans : List Plan) (t : Table String Procedure)

/-- The clauses that calls of invariants give, look-up by look-up. -/
theorem mem_activeClauses {s : Setting} {l : Layer} {actual : Expr → Expr} {calls : List Call}
    {cl : Clause} : cl ∈ s.activeClauses l actual calls ↔ ∃ call ∈ calls, ∃ i,
      s.facts.invariants.get? call.callee = some i ∧ i.layer = l ∧ ∃ c ∈ i.requires, cl =
        { c with condition := c.condition.subst (.ofFormals i.inputs (call.ins.map actual)) } := by
  rw [activeClauses, List.mem_flatMap]
  refine exists_congr fun call => and_congr_right fun _ => ?_
  cases hi : s.facts.invariants.get? call.callee with
  | none => simp [Facts.activeInvariant?, hi]
  | some i =>
    by_cases hl : i.layer = l
    · simp [Facts.activeInvariant?, hi, hl, Option.filter, YieldInvariant.instantiate, Clause.map,
        eq_comm]
    · simp [Facts.activeInvariant?, hi, hl, Option.filter]

/-- The clauses that the copies of a procedure add to its contract, for its entry or its exit. -/
def addedClauses (calls : YieldingProcedure → List Call) (name : String) : List Clause :=
  (plans.filter fun p => p.implementation.procedure = name).flatMap fun p =>
    s.activeClauses l id (calls p.yielding)

theorem addedClauses_eq_nil {s : Setting} {l : Layer} {plans : List Plan} {name : String}
    (h : ∀ p ∈ plans, p.implementation.procedure ≠ name) (calls : YieldingProcedure → List Call) :
    s.addedClauses l plans calls name = [] := by
  have hnone : plans.filter (fun p => p.implementation.procedure = name) = [] :=
    List.filter_eq_nil_iff.mpr fun p hp => by simpa using h p hp
  rw [addedClauses, hnone, List.flatMap_nil]

/-- A copy adds clauses to the contract of its own procedure only. -/
theorem get?_strengthen (p : Plan) (name : String) :
    (s.strengthen l t p).get? name = (t.get? name).map fun r =>
      r.strengthen (s.addedClauses l [p] YieldingProcedure.requires name)
        (s.addedClauses l [p] YieldingProcedure.ensures name) := by
  rw [strengthen, Table.get?_modify]
  congr 1
  funext r
  by_cases h : name = p.implementation.procedure
  · simp [addedClauses, h]
  · simp [addedClauses, h, Ne.symm h, Procedure.strengthen_nil]

/-- **A procedure has the contract that it had, with the clauses of its copies behind.** -/
theorem get?_contracts (name : String) :
    (s.contracts l plans t).get? name = (t.get? name).map fun r =>
      r.strengthen (s.addedClauses l plans YieldingProcedure.requires name)
        (s.addedClauses l plans YieldingProcedure.ensures name) := by
  induction plans generalizing t with
  | nil => simp [contracts, addedClauses, Procedure.strengthen_nil]
  | cons p plans ih =>
    have hcons : ∀ calls, s.addedClauses l (p :: plans) calls name =
        s.addedClauses l [p] calls name ++ s.addedClauses l plans calls name := by
      intro calls
      rw [addedClauses, addedClauses, addedClauses, ← List.flatMap_append, ← List.filter_append,
        List.singleton_append]
    have hfold : s.contracts l (p :: plans) t = s.contracts l plans (s.strengthen l t p) := rfl
    rw [hfold, ih, get?_strengthen, Option.map_map, hcons, hcons]
    congr 1
    funext r
    exact r.strengthen_strengthen _ _ _ _

theorem keys_contracts : (s.contracts l plans t).keys = t.keys := by
  induction plans generalizing t with
  | nil => rfl
  | cons p plans ih => exact (ih _).trans (Table.keys_modify t _ _)

variable {t}

/-- Procedures keep their formals. -/
theorem exists_contract {name : String} {r : Procedure} (h : t.get? name = some r) :
    ∃ r', (s.contracts l plans t).get? name = some r' ∧ r'.inputs = r.inputs ∧
      r'.outputs = r.outputs := by
  rw [get?_contracts, h]
  exact ⟨_, rfl, rfl, rfl⟩

end Setting

end LayerCheck
