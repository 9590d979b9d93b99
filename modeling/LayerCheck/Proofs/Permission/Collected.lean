import LayerCheck.Permission.Basic
import LayerCheck.Proofs.Table
import Mathlib.Data.List.Induction

/-!
# What is collected for each domain

What linear variables carry is collected by the names of their domains, and every domain is looked up
again under its name.  Domains are kept under their names, so each of them gets what the variables of
the domain carry, in the order of the variables.

* `Permissions.entries_collected`: the sets of every domain.
* `Permissions.unions_eq`, `Permissions.disjointness_eq`: the unions, and that sets are disjoint.
-/

namespace LayerCheck

theorem Domain.held_append_singleton (d : Domain) (vars : List Variable) (v : Variable) :
    d.held (vars ++ [v]) = d.held vars ++ if v.domain? = some d.name then [d.collect v] else [] := by
  rw [held, held, List.filter_append, List.map_append]
  by_cases hv : v.domain? = some d.name <;> simp [hv]

/-- What is collected is named after the domain only. -/
theorem Domain.collect_congr {d e : Domain} (h : d.name = e.name) (v : Variable) :
    d.collect v = e.collect v := by
  rw [collect, collect, h]

namespace Permissions

variable (p : Permissions)

/-- The sets of a domain grow with a variable of the domain. -/
theorem entries_addSet {t : Table String (List Expr)} {vars : List Variable} (v : Variable)
    (ht : t.entries = p.domains.values.map fun d => (d.name, d.held vars)) :
    (p.addSet t v).entries = p.domains.values.map fun d => (d.name, d.held (vars ++ [v])) := by
  rw [addSet]
  cases hv : v.domain?.bind p.domains.get? with
  | none =>
    rw [ht]
    refine List.map_congr_left fun d hd => ?_
    have hne : v.domain? ≠ some d.name := by
      intro h
      rw [h, Option.bind_some, p.domains_keyed.get?_of_mem hd] at hv
      cases hv
    rw [d.held_append_singleton, if_neg hne, List.append_nil]
  | some e =>
    obtain ⟨name, hname, he⟩ := Option.bind_eq_some_iff.mp hv
    obtain rfl : e.name = name := p.domains_keyed.name_eq he
    simp only [Table.modify, Table.map, ht, List.map_map]
    refine List.map_congr_left fun d _ => ?_
    rw [Function.comp_apply, d.held_append_singleton, hname]
    by_cases hd : d.name = e.name
    · rw [if_pos hd, if_pos (by rw [hd]), Domain.collect_congr hd]
    · rw [if_neg hd, if_neg fun h => hd (Option.some_inj.mp h).symm, List.append_nil]

/-- **For every domain, in order, what is collected is what its variables carry.** -/
theorem entries_collected (vars : List Variable) :
    (p.collected vars).entries = p.domains.values.map fun d => (d.name, d.held vars) := by
  induction vars using List.reverseRecOn with
  | nil =>
    refine Table.entries_ofList ?_
    rw [List.map_map]
    exact p.domains_keyed.nodup_names
  | append_singleton vars v ih =>
    rw [collected, List.foldl_append]
    exact p.entries_addSet v ih

/-- The second look-up finds the domain again. -/
theorem filterMap_collected {α : Type} (vars : List Variable)
    (f : Domain → List Expr → Option α) :
    ((p.collected vars).entries.filterMap fun e => (p.domains.get? e.1).bind (f · e.2)) =
      p.domains.values.filterMap fun d => f d (d.held vars) := by
  rw [entries_collected, List.filterMap_map]
  refine List.filterMap_congr fun d hd => ?_
  rw [Function.comp_apply, p.domains_keyed.get?_of_mem hd, Option.bind_some]

/-- **No domain is left out of the unions.** -/
theorem unions_eq (s : Site) (scope : List Variable) :
    p.unions s scope = p.domains.values.map fun d =>
      (d, d.union (d.held (p.available s scope))) := by
  have h := p.filterMap_collected (p.available s scope) fun d sets => some (d, d.union sets)
  rw [List.filterMap_eq_map'] at h
  rw [← h, unions]
  exact List.filterMap_congr fun e _ => Option.map_eq_bind

theorem disjointness_eq (vars : List Variable) :
    p.disjointness vars = p.domains.values.filterMap fun d => d.disjoint? (d.held vars) :=
  p.filterMap_collected vars Domain.disjoint?

end Permissions

end LayerCheck
