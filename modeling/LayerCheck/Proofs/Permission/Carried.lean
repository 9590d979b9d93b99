import LayerCheck.Permission.Basic
import LayerCheck.Proofs.Expr.Eval

/-!
# What variables carry

The sets that are collected from linear variables, their unions and that they are disjoint, as
values in a state.  They depend on nothing but the values of these variables.

* `Domain.eval_union_held`: the union that is stored for a domain.
* `Domain.forall_disjointWith?_iff`: what the disjointness condition of a checker says.
* `Domain.carried_congr`: what variables carry depends on their values only.
-/

namespace LayerCheck

/-- What is available at a site are linear variables that are in scope there. -/
theorem Permissions.of_mem_available (p : Permissions) {site : Site} {scope : List Variable}
    {v : Variable} (hv : v ∈ p.available site scope) : v.isLinear = true ∧ v ∈ scope := by
  have hl : ∀ {u : Variable}, u ∈ scope.filter Variable.isLinear → u.isLinear = true ∧ u ∈ scope :=
    fun hu => (List.mem_filter.mp hu).symm
  rw [available] at hv
  split at hv
  · exact hl (List.mem_of_mem_filter hv)
  · split at hv
    · exact hl hv
    · exact absurd hv List.not_mem_nil

namespace Domain

open Interpretation

variable {M : Interpretation}

/-- What the variables of the domain carry. -/
def carried (d : Domain) (vars : List Variable) (s : M.State) : List M.Value :=
  (vars.filter fun v => v.domain? = some d.name).map fun v =>
    M.app (d.name ++ "_collect") [s v.name]

theorem evalList_held (d : Domain) (vars : List Variable) (s pre : M.State) :
    Expr.evalList s pre (d.held vars) = d.carried vars s := by
  rw [held, carried]
  induction vars.filter fun v => v.domain? = some d.name with
  | nil => rfl
  | cons v vs ih => rw [List.map_cons, List.map_cons, Expr.evalList, ih]; rfl

/-- A set is disjoint from what the variables carry; that is no condition if they are none. -/
theorem forall_disjointWith?_iff {d : Domain} {set : Variable} {vars : List Variable}
    {s pre : M.State} : (∀ e ∈ d.disjointWith? set vars, M.Holds (e.eval s pre)) ↔
      (d.carried vars s ≠ [] →
        M.Holds (M.app (d.name ++ "_disjoint") (s set.name :: d.carried vars s))) := by
  have hl : (d.held vars).length = (d.carried vars s).length := by
    rw [held, carried, List.length_map, List.length_map]
  have hlt : (set.expr :: d.held vars).length < 2 ↔ d.carried vars s = [] := by
    rw [List.length_cons, hl, ← List.length_eq_zero_iff]
    omega
  rw [disjointWith?, disjoint?]
  by_cases hc : d.carried vars s = []
  · rw [if_pos (hlt.mpr hc)]
    simp [hc]
  · rw [if_neg (mt hlt.mp hc)]
    simp only [Option.mem_def, Option.some_inj, forall_eq', Expr.eval, Expr.evalList,
      evalList_held, Variable.expr, ne_eq, hc, not_false_eq_true, forall_const]

/-- The union of the sets. -/
def unionOf (d : Domain) : List M.Value → M.Value
  | [] => M.app (d.name ++ "_empty") []
  | [a] => a
  | sets => M.app (d.name ++ "_union") sets

/-- The union of what the variables carry. -/
theorem eval_union_held (d : Domain) (vars : List Variable) (s pre : M.State) :
    (d.union (d.held vars)).eval s pre = d.unionOf (d.carried vars s) := by
  rw [← evalList_held d vars s pre]
  match d.held vars with
  | [] => rfl
  | [e] => rfl
  | e :: f :: es => rfl

/-- Domains with one name have the same sets. -/
theorem unionOf_carried_congr {d e : Domain} (h : d.name = e.name) (vars : List Variable)
    (s : M.State) : d.unionOf (d.carried vars s) = e.unionOf (e.carried vars s) := by
  obtain ⟨name, _⟩ := d
  obtain ⟨name', _⟩ := e
  obtain rfl : name = name' := h
  rfl

theorem carried_congr (d : Domain) {vars : List Variable} {s t : M.State}
    (h : ∀ v ∈ vars, s v.name = t v.name) : d.carried vars s = d.carried vars t := by
  refine List.map_congr_left fun v hv => ?_
  rw [h v (List.mem_of_mem_filter hv)]

end Domain

end LayerCheck
