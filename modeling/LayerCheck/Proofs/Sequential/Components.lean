import LayerCheck.Proofs.Expr.Subst
import LayerCheck.Proofs.Sequential.Aggregation

/-!
# The contract of an aggregator joins those of its components

An aggregator demands what the callees of all components demand, and grants what they grant, if the
formals of each callee are read from the formals of the aggregator that stand for them.  These are
told apart by a number in front of them, whatever they are called and however often a callee occurs.
What is passed to the aggregator and what it takes are two lists, made one after the other from the
components; they are in step exactly if every component passes as many values as its callee takes.

* `Aggregator.view`: the state that a component sees.
* `Aggregator.eval_subst_subst`: a renamed condition is the condition in that state.
* `Aggregator.nodup_names`: the formals are told apart.
* `placed`, `InStep`: elements of lists that are put after one another, and where they come from.
* `Sequential.Produces.inStep`: the components of a layer that is accepted.
* `ParCall.aggregator_joins_contracts`: the contract, the formals and the places.
-/

namespace LayerCheck

open Interpretation

/-- All conditions hold. -/
def Interpretation.AllHold (M : Interpretation) (cs : List Clause) (cur pre : M.State) : Prop :=
  ∀ c ∈ cs, M.Holds (c.condition.eval cur pre)

/-- What of a contract is checked, and not just assumed. -/
def Clause.checked (cs : List Clause) : List Clause := cs.filter fun c => !c.free

namespace Aggregator

variable {M : Interpretation}

/-! ## The state that a component sees -/

/-- The state in which the formals of the callee at position `k` have the values of the formals of
the aggregator that stand for them. -/
def view (k : Nat) (r : Procedure) (s : M.State) : M.State := fun x =>
  if x ∈ (r.inputs ++ r.outputs).map Variable.name then s (formalName k x) else s x

theorem get?_subst (k : Nat) (r : Procedure) (x : String) :
    (subst k r).get? x =
      if x ∈ (r.inputs ++ r.outputs).map Variable.name then some (.var (formalName k x))
      else none :=
  Subst.get?_renaming (formalName k) (r.inputs ++ r.outputs) x

theorem env_subst (k : Nat) (r : Procedure) (cur pre : M.State) :
    (subst k r).env cur pre = view k r cur := by
  funext x
  rw [Subst.env, get?_subst, view]
  by_cases hx : x ∈ (r.inputs ++ r.outputs).map Variable.name
  · rw [if_pos hx, if_pos hx]
    rfl
  · rw [if_neg hx, if_neg hx]

/-- **A condition over the formals of the aggregator says what it says of the callee.**  What it
binds itself does not matter, even if a formal of the aggregator has the same name. -/
theorem eval_subst_subst (k : Nat) (r : Procedure) (e : Expr) (cur pre : M.State) :
    (e.subst (subst k r)).eval cur pre = e.eval (view k r cur) (view k r pre) := by
  rw [Expr.eval_subst_env, env_subst, env_subst]

theorem allHold_clauses_iff {k : Nat} {r : Procedure} {cs : List Clause} {cur pre : M.State} :
    M.AllHold (clauses k r cs) cur pre ↔ M.AllHold cs (view k r cur) (view k r pre) := by
  simp only [AllHold, clauses, List.forall_mem_map, ← eval_subst_subst]
  rfl

theorem checked_clauses (k : Nat) (r : Procedure) (cs : List Clause) :
    Clause.checked (clauses k r cs) = clauses k r (Clause.checked cs) := List.filter_map

/-! ## The names of the formals -/

/-- The number ends at the first separator, so the names tell the positions apart. -/
theorem formalName_inj {k l : Nat} {x y : String} :
    formalName k x = formalName l y ↔ k = l ∧ x = y := by
  constructor
  · intro h
    have hd : ∀ n : Nat, '_' ∉ Nat.toDigits 10 n := Fresh.notMem_toDigits (by decide)
    have ht : Nat.toDigits 10 k ++ '_' :: x.toList = Nat.toDigits 10 l ++ '_' :: y.toList := by
      simpa [formalName] using congrArg String.toList h
    obtain ⟨hk, hx⟩ := (List.append_cons_inj_of_notMem_left (hd k) (hd l)).mp ht
    refine ⟨Fresh.toString_injective (String.toList_inj.mp ?_), String.toList_inj.mp hx⟩
    simpa using hk
  · rintro ⟨rfl, rfl⟩
    rfl

/-- **No two formals have one name** if that is so for each callee. -/
theorem nodup_names {rs : List Procedure}
    (h : ∀ r ∈ rs, ((r.inputs ++ r.outputs).map Variable.name).Nodup) :
    ((rs.zipIdx.flatMap (fun e => formals e.2 e.1.inputs) ++
      rs.zipIdx.flatMap (fun e => formals e.2 e.1.outputs)).map Variable.name).Nodup := by
  have hnames : ∀ e : Procedure × Nat,
      (formals e.2 e.1.inputs ++ formals e.2 e.1.outputs).map Variable.name =
        ((e.1.inputs ++ e.1.outputs).map Variable.name).map (formalName e.2) := by
    intro e
    simp only [formals, ← List.map_append, List.map_map]
    rfl
  have hperm := (List.flatMap_append_perm rs.zipIdx (fun e => formals e.2 e.1.inputs)
    fun e => formals e.2 e.1.outputs).map Variable.name
  rw [hperm.nodup_iff, List.map_flatMap, List.nodup_flatMap]
  constructor
  · intro e he
    have hr : e.1 ∈ rs := List.mem_of_getElem? (List.mem_zipIdx_iff_getElem?.mp he)
    rw [hnames]
    exact (h e.1 hr).map fun x y hxy => (formalName_inj.mp hxy).2
  · -- positions differ, even where the callee is the same
    have hpositions : rs.zipIdx.Pairwise fun e d => e.2 ≠ d.2 := by
      refine List.pairwise_map.mp ?_
      rw [List.zipIdx_map_snd]
      exact List.nodup_range'
    refine hpositions.imp fun {e d} hne x hx hy => ?_
    beta_reduce at hx hy
    rw [hnames] at hx hy
    obtain ⟨y, -, rfl⟩ := List.mem_map.mp hx
    obtain ⟨z, -, hz⟩ := List.mem_map.mp hy
    exact hne (formalName_inj.mp hz).1.symm

end Aggregator

/-! ## Places in lists that are put after one another -/

section Places

variable {α β : Type}

/-- The places that lists of these lengths have, from the `k`-th list on: which list, and where in
it. -/
def placesFrom (k : Nat) : List Nat → List (Nat × Nat)
  | [] => []
  | n :: ns => (List.range n).map (Prod.mk k) ++ placesFrom (k + 1) ns

def placedFrom (k : Nat) : List (List α) → List ((Nat × Nat) × α)
  | [] => []
  | xs :: xss => xs.zipIdx.map (fun x => ((k, x.2), x.1)) ++ placedFrom (k + 1) xss

/-- The elements of the lists, one list after the other, each with its place. -/
def placed (xss : List (List α)) : List ((Nat × Nat) × α) := placedFrom 0 xss

/-- What stands at one position comes from lists at one position, and from one position there. -/
def InStep (xss : List (List α)) (yss : List (List β)) : Prop :=
  (placed xss).map Prod.fst = (placed yss).map Prod.fst

theorem map_snd_placedFrom (k : Nat) (xss : List (List α)) :
    (placedFrom k xss).map Prod.snd = xss.flatten := by
  induction xss generalizing k with
  | nil => rfl
  | cons xs xss ih =>
    rw [placedFrom, List.map_append, ih, List.map_map, List.flatten_cons]
    exact congrArg (· ++ xss.flatten) (List.zipIdx_map_fst 0 xs)

theorem map_fst_placedFrom (k : Nat) (xss : List (List α)) :
    (placedFrom k xss).map Prod.fst = placesFrom k (xss.map List.length) := by
  induction xss generalizing k with
  | nil => rfl
  | cons xs xss ih =>
    have hxs : xs.zipIdx.map (fun x => (k, x.2)) = (List.range xs.length).map (Prod.mk k) := by
      rw [List.range_eq_range', ← List.zipIdx_map_snd, List.map_map]
      rfl
    rw [placedFrom, List.map_append, ih, List.map_map, List.map_cons, placesFrom, ← hxs]
    rfl

theorem le_of_mem_placesFrom {k : Nat} {ns : List Nat} {e : Nat × Nat}
    (he : e ∈ placesFrom k ns) : k ≤ e.1 := by
  induction ns generalizing k with
  | nil => exact absurd he List.not_mem_nil
  | cons n ns ih =>
    rcases List.mem_append.mp he with he | he
    · obtain ⟨j, -, rfl⟩ := List.mem_map.mp he
      exact le_rfl
    · exact (Nat.le_succ k).trans (ih he)

/-- The places in the first list are those that come from it. -/
theorem filter_placesFrom (k n : Nat) (ns : List Nat) :
    (placesFrom k (n :: ns)).filter (fun e => e.1 = k) = (List.range n).map (Prod.mk k) := by
  have hfirst : ((List.range n).map (Prod.mk k)).filter (fun e => e.1 = k) =
      (List.range n).map (Prod.mk k) := by
    refine List.filter_eq_self.mpr fun e he => ?_
    obtain ⟨j, -, rfl⟩ := List.mem_map.mp he
    exact decide_eq_true rfl
  have hrest : (placesFrom (k + 1) ns).filter (fun e => e.1 = k) = [] := by
    refine List.filter_eq_nil_iff.mpr fun e he hk => ?_
    have hle := le_of_mem_placesFrom he
    rw [of_decide_eq_true hk] at hle
    exact absurd hle (Nat.not_succ_le_self k)
  rw [placesFrom, List.filter_append, hfirst, hrest, List.append_nil]

/-- The places tell the lengths of the lists, if it is known how many lists there are. -/
theorem placesFrom_inj {k : Nat} {ns ms : List Nat} (hl : ns.length = ms.length) :
    placesFrom k ns = placesFrom k ms ↔ ns = ms := by
  refine ⟨fun h => ?_, fun h => by rw [h]⟩
  induction ns generalizing k ms with
  | nil => exact (List.length_eq_zero_iff.mp hl.symm).symm
  | cons n ns ih =>
    cases ms with
    | nil => cases hl
    | cons m ms =>
      have hnm : n = m := by
        have hf := congrArg (List.filter fun e => e.1 = k) h
        rw [filter_placesFrom, filter_placesFrom] at hf
        simpa using congrArg List.length hf
      subst hnm
      rw [placesFrom, placesFrom, List.append_cancel_left_eq] at h
      rw [ih (Nat.succ_inj.mp hl) h]

/-- **As many lists are in step exactly if they are of the same lengths.** -/
theorem inStep_iff {xss : List (List α)} {yss : List (List β)} (hl : xss.length = yss.length) :
    InStep xss yss ↔ xss.map List.length = yss.map List.length := by
  have hlengths : (xss.map List.length).length = (yss.map List.length).length := by
    rw [List.length_map, List.length_map, hl]
  rw [InStep, placed, placed, map_fst_placedFrom, map_fst_placedFrom, placesFrom_inj hlengths]

theorem InStep.of_forall₂ {xss : List (List α)} {yss : List (List β)}
    (h : List.Forall₂ (fun xs ys => xs.length = ys.length) xss yss) : InStep xss yss := by
  refine (inStep_iff h.length_eq).mpr ?_
  rw [← List.forall₂_eq_eq_eq, List.forall₂_map_left_iff, List.forall₂_map_right_iff]
  exact h

end Places

namespace Aggregator

theorem map_formal_placedFrom (field : Procedure → List Variable) (k : Nat)
    (rs : List Procedure) :
    (placedFrom k (rs.map field)).map (fun e => formal e.1.1 e.2) =
      (rs.zipIdx k).flatMap fun e => formals e.2 (field e.1) := by
  induction rs generalizing k with
  | nil => rfl
  | cons r rs ih =>
    have hr : (field r).zipIdx.map (fun x => formal k x.1) = formals k (field r) :=
      List.map_map.symm.trans (congrArg (List.map (formal k)) (List.zipIdx_map_fst 0 (field r)))
    rw [List.map_cons, placedFrom, List.map_append, ih, List.map_map, List.zipIdx_cons,
      List.flatMap_cons, ← hr]
    rfl

end Aggregator

namespace ParCall

variable {rs : List Procedure}

/-- A part of the contract of the procedure holds exactly if that part of the contracts of all
components holds, each in the state that the component sees. -/
def Joins (rs : List Procedure) (a : Procedure) (part : Procedure → List Clause) : Prop :=
  ∀ (M : Interpretation) (cur pre : M.State), M.AllHold (part a) cur pre ↔
    ∀ k r, rs[k]? = some r →
      M.AllHold (part r) (Aggregator.view k r cur) (Aggregator.view k r pre)

theorem joins_of_clauses {a : Procedure} {part : Procedure → List Clause}
    (h : part a = rs.zipIdx.flatMap fun e => Aggregator.clauses e.2 e.1 (part e.1)) :
    Joins rs a part := by
  intro M cur pre
  rw [h, AllHold, List.forall_mem_flatMap]
  constructor
  · intro hall k r hr
    exact Aggregator.allHold_clauses_iff.mp (hall (r, k) (List.mem_zipIdx_iff_getElem?.mpr hr))
  · intro hall e he
    exact Aggregator.allHold_clauses_iff.mpr (hall e.2 e.1 (List.mem_zipIdx_iff_getElem?.mp he))

/-- What joins a part of the contracts joins what is checked of that part. -/
theorem joins_checked_of_clauses {a : Procedure} {part : Procedure → List Clause}
    (h : part a = rs.zipIdx.flatMap fun e => Aggregator.clauses e.2 e.1 (part e.1)) :
    Joins rs a fun r => Clause.checked (part r) := by
  refine joins_of_clauses ?_
  simp only [← Aggregator.checked_clauses]
  rw [h, Clause.checked, List.filter_flatMap]
  rfl

end ParCall

namespace Sequential.Produces

variable {q : Sequential} {p : Program} {out : Program × LayerOutput} {j : Implementation}
  {c : ParCall} {rs : List Procedure}

/-- **What the components of a layer pass and what their callees take is in step.** -/
theorem inStep (h : q.Produces p out j) (hc : c ∈ q.parCalls)
    (hrs : List.Forall₂ (fun call r => out.1.procedures.get? call.callee = some r) c.calls rs) :
    InStep (c.calls.map Call.ins) (rs.map Procedure.inputs) ∧
      InStep (c.calls.map Call.outs) (rs.map Procedure.outputs) := by
  obtain ⟨rs', hfits⟩ := h.exists_components hc
  obtain rfl : rs = rs' := by
    refine List.right_unique_forall₂' ?_ hrs (hfits.imp fun _ _ hf => hf.1)
    exact fun _ _ _ hr hr' => Option.some_inj.mp (hr.symm.trans hr')
  constructor
  · refine .of_forall₂ (List.forall₂_map_left_iff.mpr (List.forall₂_map_right_iff.mpr ?_))
    exact hfits.imp fun _ _ hf => hf.2.1.symm
  · refine .of_forall₂ (List.forall₂_map_left_iff.mpr (List.forall₂_map_right_iff.mpr ?_))
    exact hfits.imp fun _ _ hf => hf.2.2.symm

end Sequential.Produces

namespace ParCall

variable {procedures : Table String Procedure} {c : ParCall} {rs : List Procedure}

/-- What is passed to a procedure and what it takes are put together from the components. -/
structure Aligned {α : Type} (c : ParCall) (rs : List Procedure) (values : Call → List α)
    (formals : Procedure → List Variable) (passed : List α) (taken : List Variable) : Prop where
  passed : passed = (placed (c.calls.map values)).map Prod.snd
  taken : taken = (placed (rs.map formals)).map fun e =>
    { e.2 with name := Aggregator.formalName e.1.1 e.2.name }
  /-- The `n`-th value and the `n`-th formal always belong to the same component, and to the same
  formal of its callee, exactly if each component passes as many values as its callee takes. -/
  inStep : InStep (c.calls.map values) (rs.map formals) ↔
    c.calls.map (fun call => (values call).length) = rs.map fun r => (formals r).length

theorem aligned {α : Type} (hl : c.calls.length = rs.length) (values : Call → List α)
    (formals : Procedure → List Variable) :
    c.Aligned rs values formals (c.calls.flatMap values)
      (rs.zipIdx.flatMap fun e => Aggregator.formals e.2 (formals e.1)) where
  passed := (map_snd_placedFrom 0 _).symm
  taken := (Aggregator.map_formal_placedFrom formals 0 rs).symm
  inStep := by
    rw [inStep_iff (by rw [List.length_map, List.length_map, hl]), List.map_map, List.map_map]
    rfl

/-- **The contract of an aggregator is that of its components.**  In every two states it demands
what the callees of all components demand and grants what they grant, also as far as it is checked.
If every callee tells its formals apart, so does the aggregator.  What the call of the aggregator
passes and what the aggregator takes are the ins and the formals of the components one after the
other, and they are in step exactly if all components pass as many values as their callees take,
which is so at every layer that is accepted; likewise for what is passed back. -/
theorem aggregator_joins_contracts (globals : List Variable)
    (h : List.Forall₂ (fun call r => procedures.get? call.callee = some r) c.calls rs) :
    ∃ a, c.aggregator procedures globals = a ∧
      Joins rs a Procedure.requires ∧ Joins rs a Procedure.ensures ∧
      Joins rs a (fun r => Clause.checked r.requires) ∧
      Joins rs a (fun r => Clause.checked r.ensures) ∧
      ((∀ r ∈ rs, ((r.inputs ++ r.outputs).map Variable.name).Nodup) →
        ((a.inputs ++ a.outputs).map Variable.name).Nodup) ∧
      c.Aligned rs Call.ins Procedure.inputs c.aggregatorCall.ins a.inputs ∧
      c.Aligned rs Call.outs Procedure.outputs c.aggregatorCall.outs a.outputs ∧
      ∀ (q : Sequential) (p : Program) (out : Program × LayerOutput) (j : Implementation),
        q.Produces p out j → c ∈ q.parCalls → out.1.procedures = procedures →
          InStep (c.calls.map Call.ins) (rs.map Procedure.inputs) ∧
            InStep (c.calls.map Call.outs) (rs.map Procedure.outputs) := by
  refine ⟨_, aggregator_eq h, joins_of_clauses rfl, joins_of_clauses rfl,
    joins_checked_of_clauses rfl, joins_checked_of_clauses rfl, Aggregator.nodup_names,
    aligned h.length_eq _ _, aligned h.length_eq _ _, fun q p out j hq hc ho => ?_⟩
  exact hq.inStep hc (ho ▸ h)

end ParCall

namespace Counter

/-- A choice of a number above another.  The quantifier binds a name that stands for the input where
the procedure is the first component. -/
def pick : Procedure :=
  { name := "Pick", inputs := [{ name := "i", type := .int }]
    outputs := [{ name := "o", type := .int }]
    requires := [
      { condition := .quant .some [{ name := "__p0_i", type := .int }]
          (.binary .lt (.var "i") (.var "__p0_i")) }]
    ensures := [
      { condition := .binary .lt (.old (.var "i")) (.var "o") },
      { free := true, condition := .binary .le (.var "g") (.var "o") }] }

/-- Two threads that pick a number. -/
def picks : ParCall :=
  { id := 1
    calls := [
      { id := 2, callee := "Pick", ins := [.int 3], outs := ["a"] },
      { id := 3, callee := "Pick", ins := [.var "g"], outs := ["b"] }] }

/-- Both components have formals of their own, and get what they passed. -/
theorem aggregator_joins_contracts_picks :
    List.Forall₂ (fun call r =>
      (Table.ofList [("Pick", pick)]).get? call.callee = some r) picks.calls [pick, pick] ∧
    ∃ a, picks.aggregator (.ofList [("Pick", pick)]) [] = a ∧
      ParCall.Joins [pick, pick] a Procedure.requires ∧
      ((a.inputs ++ a.outputs).map Variable.name).Nodup ∧
      a.inputs.map Variable.name = ["__p0_i", "__p1_i"] ∧
      InStep (picks.calls.map Call.ins) [pick.inputs, pick.inputs] := by
  have h : List.Forall₂ (fun call r =>
      (Table.ofList [("Pick", pick)]).get? call.callee = some r) picks.calls [pick, pick] :=
    .cons rfl (.cons rfl .nil)
  obtain ⟨a, ha, hrequires, -, -, -, hnames, hins, -⟩ :=
    ParCall.aggregator_joins_contracts [] h
  refine ⟨h, a, ha, hrequires, hnames (by decide), ?_, hins.inStep.mpr rfl⟩
  rw [← ha]
  decide

def reader : Procedure := { name := "A", inputs := [{ name := "i", type := .int }] }

def writer : Procedure := { name := "B", inputs := [{ name := "j", type := .int }] }

/-- The first thread takes a number and gets none. -/
def shortHanded : ParCall :=
  { id := 1, calls := [{ id := 2, callee := "A" }, { id := 3, callee := "B", ins := [.int 1] }] }

/-- The value that is passed comes from the second component, and the formal that gets it stands for
that of the first one. -/
theorem shortHanded_out_of_step :
    List.Forall₂ (fun call r => (Table.ofList [("A", reader), ("B", writer)]).get? call.callee =
      some r) shortHanded.calls [reader, writer] ∧
    shortHanded.aggregatorCall.ins = [.int 1] ∧
    placed (shortHanded.calls.map Call.ins) = [((1, 0), .int 1)] ∧
    (shortHanded.aggregator (.ofList [("A", reader), ("B", writer)]) []).inputs.map Variable.name =
      ["__p0_i", "__p1_j"] ∧
    (placed ([reader, writer].map Procedure.inputs)).map Prod.fst = [(0, 0), (1, 0)] ∧
    ¬ InStep (shortHanded.calls.map Call.ins) ([reader, writer].map Procedure.inputs) := by
  refine ⟨.cons rfl (.cons rfl .nil), rfl, rfl, by decide, rfl, ?_⟩
  rw [InStep]
  decide

end Counter

end LayerCheck
