import LayerCheck.Aggregator
import LayerCheck.Proofs.Lists
import LayerCheck.Proofs.Table

/-!
# Aggregators and the parallel calls that they stand for

An aggregator is made for a parallel call: its formals and its contract are those of the components.
It is kept under a name that joins the names of the callees, so what a parallel call finds under its
name is the aggregator of the first one whose callees have the same joined name.

* `ParCall.aggregatorName_eq_iff`: when two parallel calls have one name.
* `ParCall.aggregatorName_eq_iff_of_separable`: names without separators can be told apart.
* `ParCall.ReplacedBy`: what is expected of the call that takes the place of a parallel call.
* `ParCall.AggregatedBy`: what is expected of the aggregator of a parallel call.
* `Aggregator.get?_table`: the aggregator that stands under a name.
-/

namespace LayerCheck

namespace ParCall

/-! ## Names -/

/-- The procedures that the components call, in order. -/
def calleeNames (c : ParCall) : List String := c.calls.map Call.callee

/-- The names with a separator in front of each, as one text. -/
def joined (names : List String) : List Char := (names.map String.toList).flatMap ('_' :: ·)

/-- No callee has a separator in its name. -/
def Separable (c : ParCall) : Prop := ∀ n ∈ c.calleeNames, '_' ∉ n.toList

theorem toList_aggregatorName (c : ParCall) :
    c.aggregatorName.toList = "ParallelCall".toList ++ joined c.calleeNames := by
  rw [aggregatorName, joined, calleeNames]
  generalize "ParallelCall" = name
  induction c.calls generalizing name with
  | nil => simp
  | cons c cs ih =>
    rw [List.foldl_cons, ih]
    simp

/-- **Parallel calls have one name exactly if the joined names of their callees are the same.** -/
theorem aggregatorName_eq_iff {c d : ParCall} :
    c.aggregatorName = d.aggregatorName ↔ joined c.calleeNames = joined d.calleeNames := by
  rw [← String.toList_inj, toList_aggregatorName, toList_aggregatorName, List.append_cancel_left_eq]

/-- **Names without separators tell sequences of callees apart.** -/
theorem aggregatorName_eq_iff_of_separable {c d : ParCall} (hc : c.Separable) (hd : d.Separable) :
    c.aggregatorName = d.aggregatorName ↔ c.calleeNames = d.calleeNames := by
  rw [aggregatorName_eq_iff]
  constructor
  · intro h
    have hl := List.flatMap_cons_injective (List.forall_mem_map.mpr hc)
      (List.forall_mem_map.mpr hd) h
    exact List.map_injective_iff.mpr (fun _ _ => String.toList_inj.mp) hl
  · exact fun h => by rw [h]

/-- Separators in names make different sequences of callees look alike. -/
example : aggregatorName { id := 0, calls := [{ id := 1, callee := "A_B" }] } =
    aggregatorName
      { id := 0, calls := [{ id := 1, callee := "A" }, { id := 2, callee := "B" }] } := by
  decide

/-! ## The call of an aggregator -/

/-- The call takes the place of the parallel call.  It is named after all callees, and it passes and
takes back what the components do, one component after the other. -/
structure ReplacedBy (c : ParCall) (d : Call) : Prop where
  id : d.id = c.id
  callee : d.callee.toList = "ParallelCall".toList ++ joined c.calleeNames
  ins : d.ins = c.calls.flatMap Call.ins
  outs : d.outs = c.calls.flatMap Call.outs
  attributes : d.attributes = c.attributes

theorem replacedBy_aggregatorCall (c : ParCall) : c.ReplacedBy c.aggregatorCall :=
  ⟨rfl, c.toList_aggregatorName, rfl, rfl, rfl⟩

end ParCall

/-! ## Contracts -/

/-- The name of the formal that stands for the formal `x` of the callee at position `k`. -/
def Aggregator.formalName (k : Nat) (x : String) : String := "__p" ++ toString k ++ "_" ++ x

/-- The clause with the formals of the procedure told apart as those of a callee at position `k`. -/
def Clause.apart (k : Nat) (r : Procedure) (c : Clause) : Clause :=
  { c with
    condition := c.condition.subst (.ofList ((r.inputs ++ r.outputs).map fun v =>
      (v.name, .var (Aggregator.formalName k v.name)))) }

namespace ParCall

variable {procedures : Table String Procedure} {globals : List Variable}

/-- The procedure takes the place of the components of the parallel call: its formals and its
contract are those of their callees in order, the formals told apart by position, and it takes as
many arguments and gives as many results as they do together. -/
structure AggregatedBy (procedures : Table String Procedure) (globals : List Variable) (c : ParCall)
    (a : Procedure) : Prop where
  name : a.name.toList = "ParallelCall".toList ++ joined c.calleeNames
  components : ∃ rs : List Procedure,
    List.Forall₂ (fun call r => procedures.get? call.callee = some r) c.calls rs ∧
      a.inputs = rs.zipIdx.flatMap (fun r => r.1.inputs.map fun v =>
        { v with name := Aggregator.formalName r.2 v.name }) ∧
      a.outputs = rs.zipIdx.flatMap (fun r => r.1.outputs.map fun v =>
        { v with name := Aggregator.formalName r.2 v.name }) ∧
      a.requires = rs.zipIdx.flatMap (fun r => r.1.requires.map (Clause.apart r.2 r.1)) ∧
      a.ensures = rs.zipIdx.flatMap (fun r => r.1.ensures.map (Clause.apart r.2 r.1))
  modifies : a.modifies = globals.map Variable.name
  ins : a.inputs.length = (c.calls.flatMap Call.ins).length
  outs : a.outputs.length = (c.calls.flatMap Call.outs).length

/-- The callee of a component takes what the component passes. -/
def Fits (procedures : Table String Procedure) (call : Call) (r : Procedure) : Prop :=
  procedures.get? call.callee = some r ∧ r.inputs.length = call.ins.length ∧
    r.outputs.length = call.outs.length

/-- There are as many formals as values are passed if that is so for each callee. -/
theorem length_formals {α : Type} (field : Procedure → List Variable) {passed : Call → List α}
    {calls : List Call} {rs : List Procedure}
    (h : List.Forall₂ (fun call r => (field r).length = (passed call).length) calls rs) (n : Nat) :
    ((rs.zipIdx n).flatMap fun r => Aggregator.formals r.2 (field r.1)).length =
      (calls.flatMap passed).length := by
  induction h generalizing n with
  | nil => rfl
  | cons hr _ ih =>
    rw [List.zipIdx_cons, List.flatMap_cons, List.length_append, ih, List.flatMap_cons,
      List.length_append, Aggregator.formals, List.length_map, hr]

theorem callees_eq {c : ParCall} {rs : List Procedure}
    (h : List.Forall₂ (fun call r => procedures.get? call.callee = some r) c.calls rs) :
    c.callees procedures = rs.zipIdx := by
  rw [callees]
  generalize c.calls = calls, 0 = n at h ⊢
  induction h generalizing n with
  | nil => rfl
  | cons hr _ ih =>
    simp only [List.zipIdx_cons, List.filterMap_cons, hr, Option.map_some, ih]

theorem aggregator_eq {c : ParCall} {rs : List Procedure}
    (h : List.Forall₂ (fun call r => procedures.get? call.callee = some r) c.calls rs) :
    c.aggregator procedures globals =
      Aggregator.ofCallees c.aggregatorName globals rs.zipIdx := by
  rw [aggregator, callees_eq h]

/-- **The aggregator of a parallel call whose callees take what is passed.** -/
theorem aggregatedBy_aggregator {c : ParCall} {rs : List Procedure}
    (h : List.Forall₂ (Fits procedures) c.calls rs) :
    c.AggregatedBy procedures globals (c.aggregator procedures globals) := by
  have hget : List.Forall₂ (fun call r => procedures.get? call.callee = some r) c.calls rs :=
    h.imp fun _ _ hf => hf.1
  rw [aggregator_eq hget]
  refine ⟨c.toList_aggregatorName, ⟨rs, hget, rfl, rfl, rfl, rfl⟩, rfl, ?_, ?_⟩
  · exact length_formals Procedure.inputs (h.imp fun _ _ hf => hf.2.1) 0
  · exact length_formals Procedure.outputs (h.imp fun _ _ hf => hf.2.2) 0

/-- An aggregator depends on nothing but the names of the callees. -/
theorem aggregator_congr {c d : ParCall} (h : c.calleeNames = d.calleeNames) :
    c.aggregator procedures globals = d.aggregator procedures globals := by
  have hc : ∀ e : ParCall, e.callees procedures =
      e.calleeNames.zipIdx.filterMap fun n => (procedures.get? n.1).map (·, n.2) := by
    intro e
    rw [callees, calleeNames, List.zipIdx_map, List.filterMap_map]
    rfl
  have hn : c.aggregatorName = d.aggregatorName := aggregatorName_eq_iff.mpr (by rw [h])
  rw [aggregator, aggregator, hc, hc, h, hn]

end ParCall

namespace Aggregator

variable {procedures : Table String Procedure} {globals : List Variable} {calls : List ParCall}

/-- The aggregators of parallel calls, one after the other. -/
def table (procedures : Table String Procedure) (globals : List Variable) (calls : List ParCall) :
    Table String Procedure :=
  declare procedures globals ∅ calls

theorem declare_append (t : Table String Procedure) (cs ds : List ParCall) :
    declare procedures globals t (cs ++ ds) =
      declare procedures globals (declare procedures globals t cs) ds :=
  List.foldl_append

/-- **Under a name stands the aggregator of the first parallel call with that name.** -/
theorem get?_table (name : String) :
    (table procedures globals calls).get? name =
      (calls.find? fun d => d.aggregatorName = name).map (·.aggregator procedures globals) := by
  rw [table, declare, Table.get?_foldl_insertIfNew]
  exact Option.none_or

/-- The aggregators that are kept have the names under which they are kept. -/
theorem mem_values_table_iff {a : Procedure} :
    a ∈ (table procedures globals calls).values ↔
      (table procedures globals calls).get? a.name = some a := by
  rw [Table.mem_values]
  constructor
  · intro hx
    obtain ⟨name, ha⟩ := hx
    have hn := ha
    rw [get?_table, Option.map_eq_some_iff] at hn
    obtain ⟨d, hd, rfl⟩ := hn
    have hdn : d.aggregatorName = name := by simpa using List.find?_some hd
    rw [show (d.aggregator procedures globals).name = name from hdn]
    exact ha
  · exact fun ha => ⟨_, ha⟩

end Aggregator

end LayerCheck
