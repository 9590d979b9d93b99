import LayerCheck.Proofs.Contract
import LayerCheck.Proofs.Expr.Subst
import LayerCheck.Proofs.Program.Exec
import LayerCheck.Proofs.Sequential.Body

/-!
# What is assumed on entry

The initial block of a copy assumes what the contract of its procedure requires.  The contract at the
layer takes over the invariants that the procedure names for its entry with the arguments of the
calls; the copy takes them over with the arguments below `old`, and renames the inputs afterwards.
On entry the earlier state is the current one, so that both say the same.

* `Expr.AgreesOnEntry`: expressions that say the same on entry.
* `Setting.forall₂_activeClauses`: the two ways to take over an invariant.
* `Sequential.Produces.entry_assumes_contract`: what the initial block assumes.
-/

namespace LayerCheck

open Interpretation Command

/-- The expressions have the same value in every state that is its own earlier state. -/
def Expr.AgreesOnEntry (e d : Expr) : Prop :=
  ∀ (M : Interpretation) (s : M.State), e.eval s s = d.eval s s

/-- The state in which the inputs of the procedure have the values of those of an implementation, by
position. -/
def Procedure.view {M : Interpretation} (r : Procedure) (i : Implementation) (s : M.State) :
    M.State :=
  setAll s (r.inputs.map Variable.name) (i.inputs.map fun v => s v.name)

namespace Expr

variable {e d : Expr}

theorem AgreesOnEntry.refl (e : Expr) : e.AgreesOnEntry e := fun _ _ => rfl

theorem AgreesOnEntry.subst (h : e.AgreesOnEntry d) (s : Subst) :
    (e.subst s).AgreesOnEntry (d.subst s) := fun M t => by
  rw [eval_subst_env, eval_subst_env, h]

/-- Whether actuals stand below `old` does not matter on entry. -/
theorem agreesOnEntry_ofFormals_old (e : Expr) (formals : List Variable) (actuals : List Expr) :
    (e.subst (.ofFormals formals (actuals.map .old))).AgreesOnEntry
      (e.subst (.ofFormals formals actuals)) := fun M s => by
  have hvals : (actuals.map Expr.old).map (·.eval s s) = actuals.map (·.eval s s) := by
    rw [List.map_map]
    rfl
  rw [eval_subst_env, eval_subst_env, Subst.env_ofFormals, Subst.env_ofFormals, hvals]

/-- The inputs of an implementation in place of those of the procedure. -/
theorem eval_ofFormals_expr {M : Interpretation} (e : Expr) (r : Procedure) (i : Implementation)
    (s : M.State) :
    (e.subst (.ofFormals r.inputs (i.inputs.map Variable.expr))).eval s s =
      e.eval (r.view i s) (r.view i s) := by
  rw [eval_subst_env, Subst.env_ofFormals, List.map_map]
  rfl

end Expr

theorem YieldInvariant.forall₂_instantiate_old (i : YieldInvariant) (actuals : List Expr) :
    List.Forall₂ (fun c d => c.condition.AgreesOnEntry d.condition)
      (i.instantiate (actuals.map .old)) (i.instantiate actuals) := by
  refine List.forall₂_map_left_iff.mpr (List.forall₂_map_right_iff.mpr ?_)
  exact List.forall₂_same.mpr fun c _ => c.condition.agreesOnEntry_ofFormals_old i.inputs actuals

namespace Setting

variable (s : Setting) (l : Layer)

/-- **Both ways to take over an invariant give as many clauses, which say the same on entry.** -/
theorem forall₂_activeClauses (calls : List Call) :
    List.Forall₂ (fun c d => c.condition.AgreesOnEntry d.condition)
      (s.activeClauses l .old calls) (s.activeClauses l id calls) := by
  induction calls with
  | nil => exact .nil
  | cons c calls ih =>
    refine List.rel_append ?_ ih
    beta_reduce
    cases s.facts.activeInvariant? l c with
    | none => exact .nil
    | some i =>
      rw [List.map_id]
      exact i.forall₂_instantiate_old c.ins

/-- The only copy of a procedure is the only one that adds to its contract. -/
theorem addedClauses_eq {s : Setting} {l : Layer} {plans : List Plan} (hn : plans.Nodup)
    {plan : Plan} (hm : plan ∈ plans)
    (hone : ∀ p ∈ plans, p.implementation.procedure = plan.implementation.procedure → p = plan)
    (calls : YieldingProcedure → List Call) :
    s.addedClauses l plans calls plan.implementation.procedure =
      s.activeClauses l id (calls plan.yielding) := by
  refine (hn.filter _).flatMap_eq (List.mem_filter.mpr ⟨hm, decide_eq_true rfl⟩) ?_
  intro p hp hne
  obtain ⟨hp, hproc⟩ := List.mem_filter.mp hp
  exact absurd (hone p hp (of_decide_eq_true hproc)) hne

end Setting

namespace Sequential

variable {q : Sequential} {p : Program} {out : Program × LayerOutput} {j : Implementation}

/-- The conditions that the initial block assumes of its entry. -/
def entryConditions (q : Sequential) : List Expr :=
  (q.plan.procedure.requires ++ q.setting.entryClauses q.layer q.plan).map fun c =>
    c.condition.subst q.plan.inputSubst

/-- What the initial block does once it has assumed what it may rely on. -/
def setUp (q : Sequential) : List Command :=
  Snapshot.update q.globals ++ q.refinement.initial ++
    q.interference.collect q.plan.entrySite q.plan.implementation.inputs

theorem initialBlock_commands (q : Sequential) (others : List Block) :
    (q.initialBlock others).commands =
      q.setting.havocGlobals ++
        q.setting.permissions.assumeDisjoint q.plan.entrySite q.source.inputs q.setting.globals ++
        q.entryConditions.map .assume ++ q.setUp := by
  simp only [initialBlock, initialBlockFrom, Setting.preconditions, entryConditions, setUp,
    List.map_map, List.append_assoc]
  rfl

/-- Nothing more is assumed. -/
theorem setsLocals_of_mem_setUp {c : Command} (hc : c ∈ q.setUp) : q.SetsLocals c := by
  rw [setUp, List.mem_append, List.mem_append] at hc
  rcases hc with (hc | hc) | hc
  · exact .of_mem_update hc
  · exact .of_mem_initial hc
  · exact .of_mem_collect hc

/-- The contract of a procedure that has no other copy takes over the invariants of the copy. -/
theorem Produces.get?_procedures (h : q.Produces p out j)
    (hone : ∀ name ∈ q.setting.copies.implementations.keys, ∀ i,
      p.implementations.get? name = some i → i.procedure = q.source.procedure → name = q.name) :
    ∃ r, out.1.procedures.get? q.source.procedure = some r ∧ r.inputs = q.plan.procedure.inputs ∧
      r.requires = q.plan.procedure.requires ++
        q.setting.activeClauses q.layer id q.plan.yielding.requires := by
  obtain ⟨plans, hp, hm⟩ := h.planned
  obtain ⟨name, origin, hplan⟩ := h.exists_planned
  have hnames := Setting.nodup_names hp
  have honly : ∀ c ∈ plans,
      c.implementation.procedure = q.source.procedure → c = q.plan := by
    intro c hc hproc
    obtain ⟨o, ho, hcp⟩ := Setting.exists_copy hp hc
    exact List.inj_on_of_nodup_map hnames hc hm
      (hone c.name (Table.mem_keys.mpr ⟨o, ho⟩) _ hcp.implementation hproc)
  have hr := Setting.get?_contracts q.setting q.layer plans p.procedures q.source.procedure
  rw [hplan.procedure, Option.map_some] at hr
  rw [h.out_eq hp]
  refine ⟨_, hr, rfl, ?_⟩
  rw [← Setting.addedClauses_eq (.of_map _ hnames) hm honly]
  rfl

/-- **The initial block assumes the contract.**  If no other copy implements the procedure of a copy,
the initial block of the copy gives the globals any values that fit the permissions at hand, and then
assumes one condition for every clause that the procedure requires at the layer, in their order, and
nothing more.  Read in a state that is its own earlier state, every condition has the value of its
clause with the inputs of the copy in place of those of the procedure.  So the assumptions are passed
from a state exactly if the contract of the procedure allows it. -/
theorem Produces.entry_assumes_contract (h : q.Produces p out j)
    (hone : ∀ name ∈ q.setting.copies.implementations.keys, ∀ i,
      p.implementations.get? name = some i → i.procedure = q.source.procedure → name = q.name) :
    ∃ r conditions first rest,
      out.1.procedures.get? q.source.procedure = some r ∧
      r.inputs.length = q.source.inputs.length ∧
      r.requires = q.plan.procedure.requires ++
        q.setting.activeClauses q.layer id q.plan.yielding.requires ∧
      j.blocks.head? = some first ∧ first.label = Label.initial ∧
      first.commands = q.setting.havocGlobals ++
        q.setting.permissions.assumeDisjoint q.plan.entrySite q.source.inputs q.setting.globals ++
        conditions.map .assume ++ rest ∧
      (∀ c ∈ rest, c.isPredicate = false) ∧
      List.Forall₂ (fun e c => e.AgreesOnEntry
          (c.condition.subst (.ofFormals r.inputs (q.source.inputs.map Variable.expr))))
        conditions r.requires ∧
      ∀ (M : Interpretation) (s : M.State) (globals : List String),
        Runs ⟨s, globals⟩ (conditions.map .assume) s s ↔
          ∀ c ∈ r.requires, M.Holds (c.condition.eval (r.view q.source s) (r.view q.source s)) := by
  obtain ⟨r, hr, hin, hreq⟩ := h.get?_procedures hone
  obtain ⟨name, origin, hplan⟩ := h.exists_planned
  have hagree : List.Forall₂ (fun e c => e.AgreesOnEntry
      (c.condition.subst (.ofFormals r.inputs (q.source.inputs.map Variable.expr))))
      q.entryConditions r.requires := by
    rw [hreq, hin]
    refine List.forall₂_map_left_iff.mpr (List.rel_append ?_ ?_)
    · exact List.forall₂_same.mpr fun c _ => .refl _
    · exact (q.setting.forall₂_activeClauses q.layer _).imp fun c d hcd => hcd.subst _
  refine ⟨r, q.entryConditions, q.initialBlock q.others, q.setUp, hr, ?_, hreq, ?_, rfl,
    q.initialBlock_commands q.others, fun c hc => (setsLocals_of_mem_setUp hc).isPredicate, hagree,
    fun M s globals => ?_⟩
  · rw [hin]
    exact hplan.inputs
  · rw [h.eq_implementation]
    rfl
  · rw [runs_assumes, and_iff_left rfl]
    simp only [← Expr.eval_ofFormals_expr]
    constructor
    · intro hall c hc
      obtain ⟨e, he, hec⟩ := hagree.exists_of_mem_right hc
      exact hec M s ▸ hall e he
    · intro hall e he
      obtain ⟨c, hc, hec⟩ := hagree.exists_of_mem_left he
      exact (hec M s).symm ▸ hall c hc

end Sequential

namespace Counter

def bound (v : String) : Variable := { name := v, type := .int }

/-- Whatever is not above the bound is not above the global.  The quantifier binds the name that the
copy has for its input. -/
def atLeast : YieldInvariant :=
  { name := "AtLeast", layer := 1, inputs := [bound "b"]
    requires := [
      { condition := .quant .all [bound "m"]
          (.implies (.binary .le (.var "m") (.var "b")) (.binary .le (.var "m") (.old x.expr))) }] }

def boundedMain : YieldingProcedure :=
  { kind := .mover .non, upper := 2
    requires := [{ id := 1, callee := "AtLeast", ins := [.var "n"] }] }

def bounded : Sequential :=
  { setting := {
      facts := {
        globals := [x]
        procedures := .ofList [("Main", boundedMain)]
        invariants := .ofList [("AtLeast", atLeast)] }
      copies := { implementations := .ofList [("Main_1", ⟨"Main", "Main"⟩)] } }
    layer := 1
    plan := {
      implementation := { copy [{ label := "A" }] with inputs := [bound "m"] }
      procedure := {
        name := "Main_1", inputs := [bound "n"]
        requires := [{ condition := .binary .ge (.var "n") (.int 0) }] }
      origin := ⟨"Main", "Main"⟩
      yielding := boundedMain
      action? := none } }

def boundedProgram : Program :=
  { globals := [x]
    procedures := .ofList [("Main_1", bounded.plan.procedure)]
    implementations := .ofList [("Main_1", bounded.source)] }

theorem exists_produces_bounded :
    ∃ out, bounded.Produces boundedProgram out bounded.implementation := by
  have hr : bounded.source.flow.isReducible = true := by cbv
  have hc : bounded.setting.checkConcurrent 1 boundedProgram bounded.source = .ok () :=
    Setting.checkConcurrent_of_reducible hr rfl
  have hp : bounded.setting.plan 1 boundedProgram = .ok [bounded.plan] :=
    Setting.plan_singleton rfl rfl hc rfl
  exact ⟨_, Sequential.Produces.of_plan hp (List.mem_singleton_self _) rfl⟩

/-- The copy assumes a condition for the clause of its procedure and one for the invariant. -/
theorem entry_assumes_contract_bounded : ∃ out r conditions,
    bounded.Produces boundedProgram out bounded.implementation ∧
      (∀ name ∈ bounded.setting.copies.implementations.keys, ∀ i,
        boundedProgram.implementations.get? name = some i →
          i.procedure = bounded.source.procedure → name = bounded.name) ∧
      out.1.procedures.get? "Main_1" = some r ∧ r.requires.length = 2 ∧
      List.Forall₂ (fun (e : Expr) c => e.AgreesOnEntry
          (c.condition.subst (.ofFormals r.inputs (bounded.source.inputs.map Variable.expr))))
        conditions r.requires := by
  obtain ⟨out, h⟩ := exists_produces_bounded
  have hone : ∀ name ∈ bounded.setting.copies.implementations.keys, ∀ i,
      boundedProgram.implementations.get? name = some i →
        i.procedure = bounded.source.procedure → name = bounded.name :=
    fun name hname _ _ _ => List.mem_singleton.mp hname
  obtain ⟨r, conditions, -, -, hr, -, hreq, -, -, -, -, hagree, -⟩ := h.entry_assumes_contract hone
  refine ⟨out, r, conditions, h, hone, hr, ?_, hagree⟩
  rw [hreq]
  rfl

end Counter

end LayerCheck
