import LayerCheck.Proofs.Contract
import LayerCheck.Proofs.Permission.Disjointness
import LayerCheck.Proofs.Plan
import LayerCheck.Proofs.Sequential.Base
import Mathlib

/-!
# What a layer leaves as it was

Instrumenting a layer changes copies and the contracts of the procedures that they implement.  Two
ways lead from a recorded name, to the origin of the copy and to its procedure, and they need not
agree; so it is said for each of them what it may change.

* `Setting.Framed`: what a program has in common with the program before the layer.
* `Setting.transform_framed`: an accepted layer is framed.
-/

namespace LayerCheck

namespace Setting

/-- The program `p'` is `p` but for the copies and the contracts of their procedures. -/
structure Framed (s : Setting) (l : Layer) (p p' : Program) : Prop where
  globals : p'.globals = p.globals
  procedure_keys : p'.procedures.keys = p.procedures.keys
  implementation_keys : p'.implementations.keys = p.implementations.keys
  /-- What is no copy stays, the sources of the copies among it. -/
  other_implementation : ∀ name ∉ s.copies.implementations.keys,
    p'.implementations.get? name = p.implementations.get? name
  /-- Procedures that no copy implements stay. -/
  other_procedure : ∀ name, (∀ copy ∈ s.copies.implementations.keys,
      ∀ i, p.implementations.get? copy = some i → i.procedure ≠ name) →
    p'.procedures.get? name = p.procedures.get? name
  /-- Contracts only grow, at their ends. -/
  contract : ∀ name r, p.procedures.get? name = some r →
    ∃ rs es, p'.procedures.get? name =
      some { r with requires := r.requires ++ rs, ensures := r.ensures ++ es }
  /-- A copy keeps all but its blocks; locals only come in behind those that it has. -/
  copy : ∀ name ∈ s.copies.implementations.keys,
    ∃ i bs vs, p.implementations.get? name = some i ∧
      p'.implementations.get? name = some { i with blocks := bs, locals := i.locals ++ vs }
  /-- A copy that is atomic at the layer keeps its locals too, and its blocks but for disjointness
  assumptions. -/
  atomic : ∀ name origin y, s.copies.implementations.get? name = some origin →
    s.facts.procedures.get? origin.procedure = some y → y.isMover = true → y.upper = l →
    ∃ i bs, p.implementations.get? name = some i ∧
      p'.implementations.get? name = some { i with blocks := bs } ∧
      List.Forall₂ (Block.Assumed s.permissions s.yielding i.vars) i.blocks bs

variable {s : Setting} {l : Layer} {p : Program} {out : Program × LayerOutput}

/-- Whatever becomes of a copy, its blocks and the end of its locals are all that changes. -/
theorem exists_transformCopy (plan : Plan) : ∃ bs vs, s.transformCopy l plan =
    { plan.implementation with blocks := bs, locals := plan.implementation.locals ++ vs } := by
  cases hat : plan.isAtomicAt l with
  | true =>
    refine ⟨(plan.implementation.withDisjointness s.permissions s.copies s.yielding).blocks, [], ?_⟩
    rw [transformCopy_of_atomic hat, List.append_nil]
    exact Implementation.withDisjointness_eq _ _ _ _
  | false =>
    rw [transformCopy_of_concurrent hat]
    exact ⟨_, _, rfl⟩

/-- **An accepted layer changes its copies and the contracts of their procedures, and nothing
else.**  Contracts get clauses at their ends, copies get locals behind theirs and other blocks; a
copy that is atomic at the layer gets disjointness assumptions only. -/
theorem transform_framed (h : s.transform l p = .ok out) :
    s.Framed l p out.1 := by
  obtain ⟨plans, hp, rfl⟩ := transform_eq_ok.mp h
  have hget := @get?_transformProgram s l p plans hp
  constructor
  case globals => rfl
  case procedure_keys => exact keys_contracts s l plans _
  case implementation_keys => exact keys_transformProgram hp
  case other_implementation => exact fun name => get?_transformProgram_of_notMem hp
  case other_procedure =>
    intro name hn
    have hne : ∀ plan ∈ plans, plan.implementation.procedure ≠ name := by
      intro plan hm
      obtain ⟨origin, ho, hpl⟩ := exists_copy hp hm
      exact hn _ (Table.mem_keys.mpr ⟨_, ho⟩) _ hpl.implementation
    show (s.contracts l plans p.procedures).get? name = _
    rw [get?_contracts, addedClauses_eq_nil hne, addedClauses_eq_nil hne]
    simp [Procedure.strengthen_nil]
  case contract =>
    intro name r hr
    refine ⟨s.addedClauses l plans YieldingProcedure.requires name,
      s.addedClauses l plans YieldingProcedure.ensures name, ?_⟩
    show (s.contracts l plans p.procedures).get? name = _
    rw [get?_contracts, hr]
    rfl
  case copy =>
    intro name hn
    obtain ⟨origin, ho⟩ := Table.mem_keys.mp hn
    obtain ⟨plan, hm, rfl, hpl⟩ := exists_plan hp ho
    obtain ⟨bs, vs, ht⟩ := exists_transformCopy (s := s) (l := l) plan
    exact ⟨plan.implementation, bs, vs, hpl.implementation, (hget hm).trans (congrArg some ht)⟩
  case atomic =>
    intro name origin y ho hy hmover hupper
    obtain ⟨plan, hm, rfl, hpl⟩ := exists_plan hp ho
    obtain rfl : plan.yielding = y := Option.some_inj.mp (hpl.yielding.symm.trans hy)
    have hat : plan.isAtomicAt l = true := by
      rw [Plan.isAtomicAt, YieldingProcedure.isAtomicAt, hmover, hupper]
      exact beq_self_eq_true l
    refine ⟨plan.implementation, _, hpl.implementation, ?_,
      plan.implementation.forall₂_withDisjointness s.permissions s.copies s.yielding⟩
    rw [hget hm, transformCopy_of_atomic hat]
    exact congrArg some (Implementation.withDisjointness_eq _ _ _ _)

end Setting

/-! ## A counter with a helper

Beside the copy of the counter there is one of a mover that ends at the layer, and the program keeps
the source of it.  The counter has an invariant and leaves work for later. -/

namespace Counter

def invariantCall : Call := { id := 9, callee := "Positive" }

def later : AtomicAction := { name := "Later", layers := ⟨2, 2⟩ }

def token (name : String) : Variable := { name, type := .int, domain? := some "D" }

def helped : Setting :=
  { facts := {
      globals := [x]
      procedures := .ofList [
        ("Main",
          { kind := .action "Add", upper := 1
            requires := [invariantCall], ensures := [invariantCall] }),
        ("Help", { kind := .mover .left, upper := 1 })]
      invariants := .ofList [
        ("Positive", { name := "Positive", layer := 1
                       requires := [{ condition := .binary .ge x.expr (.int 0) }] })]
      actions := .ofList [("Add", { action with pending := ["Later"] }), ("Later", later)]
      loops := .ofList [(⟨"Main", "H"⟩, { layers := [1], invariants := [invariantCall] })] }
    permissions := {
      domains := .ofList [("D", { name := "D", element := .int })]
      recorded := .ofList [(.command 8, ["a", "b"])] }
    copies := {
      implementations := .ofList [("Main_1", ⟨"Main", "Main"⟩), ("Help_1", ⟨"Help", "Help"⟩)]
      blocks := .ofList [(⟨"Main_1", "H"⟩, ⟨"Main", "H"⟩), (⟨"Help_1", "A"⟩, ⟨"Help", "A"⟩)] }
    yielding := ["Help"]
    refinementBlocks := .ofList [(3, { label := "R", transfer := .goto [] })] }

/-- Calls itself, with two tokens at hand. -/
def help (name : String) : Implementation :=
  { name, procedure := name, inputs := [token "a", token "b"]
    blocks := [{ label := "A", commands := [.call { id := 8, callee := "Help" }] }] }

def helpContract (name : String) : Procedure :=
  { name, inputs := [token "a", token "b"] }

def helpedProgram : Program :=
  { globals := [x]
    procedures := .ofList [("Help", helpContract "Help"), ("Help_1", helpContract "Help_1"),
      ("Main_1", { name := "Main_1" }), ("Work", { name := "Work" }), ("Later", { name := "Later" })]
    implementations := .ofList [("Help", help "Help"), ("Help_1", help "Help_1"),
      ("Main_1", copy blocks)] }

def mainPlan : Plan :=
  { implementation := copy blocks
    procedure := { name := "Main_1" }
    origin := ⟨"Main", "Main"⟩
    yielding :=
      { kind := .action "Add", upper := 1, requires := [invariantCall], ensures := [invariantCall] }
    action? := some { action with pending := ["Later"] } }

def helpPlan : Plan :=
  { implementation := help "Help_1"
    procedure := helpContract "Help_1"
    origin := ⟨"Help", "Help"⟩
    yielding := { kind := .mover .left, upper := 1 }
    action? := none }

theorem faithful_helped :
    ∀ plan ∈ [mainPlan, helpPlan], helped.copies.Faithful plan.implementation := by
  intro plan hm
  unfold Copies.Faithful
  rcases List.mem_cons.mp hm with rfl | hm
  · decide
  · obtain rfl := List.mem_singleton.mp hm
    decide

theorem plan_helped : helped.plan 1 helpedProgram = .ok [mainPlan, helpPlan] := by
  have hr : (copy blocks).flow.isReducible = true := by cbv
  have hc : helped.checkConcurrent 1 helpedProgram (copy blocks) = .ok () := by
    rw [Setting.checkConcurrent, Implementation.checkReducible, if_pos hr]
    rfl
  have hmain : helped.planCopy 1 helpedProgram "Main_1" ⟨"Main", "Main"⟩ = .ok mainPlan := by
    have h : helped.planCopy 1 helpedProgram "Main_1" ⟨"Main", "Main"⟩ = (do
        (copy blocks).checkBlocks
        helped.checkConcurrent 1 helpedProgram (copy blocks)
        return mainPlan) := rfl
    rw [h, hc]
    rfl
  have hhelp : helped.planCopy 1 helpedProgram "Help_1" ⟨"Help", "Help"⟩ = .ok helpPlan := rfl
  have hp : (helped.facts.pendingTargets 1).forM (helped.checkPending helpedProgram) = .ok () := rfl
  have he : helped.copies.implementations.entries =
    [("Main_1", ⟨"Main", "Main"⟩), ("Help_1", ⟨"Help", "Help"⟩)] := rfl
  rw [Setting.plan, he]
  simp only [List.mapM_cons, hmain, hhelp]
  exact hp ▸ rfl

/-- The helper with the assumption that its tokens differ. -/
def helpAssumed : Implementation :=
  { help "Help_1" with
    blocks := [
      { label := "A"
        commands := [.call { id := 8, callee := "Help" },
          .assume (.app "D_disjoint" [.app "D_collect" [.var "a"], .app "D_collect" [.var "b"]])] }] }

theorem transformCopy_help : helped.transformCopy 1 helpPlan = helpAssumed := by cbv

/-- What becomes of the counter and its helper. -/
def helpedOut : Program × LayerOutput :=
  let out := helped.transformProgram 1 [mainPlan, helpPlan] helpedProgram
  (out, helped.output 1 [mainPlan, helpPlan] out.procedures)

theorem transform_helped : helped.transform 1 helpedProgram = .ok helpedOut :=
  Setting.transform_eq_ok.mpr ⟨_, plan_helped, rfl⟩

end Counter

/-- The contract of the counter gets the invariant; the helper gets an assumption behind its call,
and its source does not. -/
theorem Setting.transform_framed_helped :
    Counter.helped.transform 1 Counter.helpedProgram = .ok Counter.helpedOut ∧
      Counter.helped.Framed 1 Counter.helpedProgram Counter.helpedOut.1 ∧
      (Counter.helpedOut.1.procedures.get? "Main_1").map (·.requires.length) = some 1 ∧
      Counter.helpedOut.1.implementations.get? "Help_1" = some Counter.helpAssumed ∧
      Counter.helpedOut.1.implementations.get? "Help" = some (Counter.help "Help") := by
  have hf := transform_framed Counter.transform_helped
  have hm : Counter.helpPlan ∈ [Counter.mainPlan, Counter.helpPlan] :=
    List.mem_cons_of_mem _ (List.mem_singleton_self _)
  have hhelp := get?_transformProgram Counter.plan_helped hm
  rw [Counter.transformCopy_help] at hhelp
  exact ⟨Counter.transform_helped, hf, rfl, hhelp,
    hf.other_implementation "Help" (by decide)⟩

end LayerCheck
