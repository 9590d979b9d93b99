import LayerCheck.Proofs.Expr.Subst

/-!
# New names for bound variables

A bound variable gets a new name if a replacement that is left below the quantifier mentions it.
The name is the first of `x#0`, `x#1`, … that is not taken; names chosen for other variables of the
same quantifier do not count as taken.  They need not: a name made from `x` ends in `#` and a
number, a number has no `#` in it, and so the name tells `x`, whatever `x` looks like.

* `Replacement.Renamed`: what a new name is.
* `Replacement.renamed_of_mentioned`: bound variables that need a new name get one.
* `Expr.binders_renamed_apart`: the variables of a quantifier after a replacement.
-/

namespace LayerCheck

namespace Replacement

/-- The replacements that are left below a quantifier over `vars`. -/
def remaining (r : Replacement) (vars : List Variable) : List Expr :=
  (r.without vars).current.values ++ ((r.without vars).past?.map Table.values).getD []

/-- The names that no new name of a bound variable may be. -/
def taken (r : Replacement) (vars : List Variable) (body : Expr) : List String :=
  (r.without vars).freeVars ++ body.freeVars ++ vars.map Variable.name

/-- The bound variable `x` has the new name `name`. -/
structure Renamed (r : Replacement) (vars : List Variable) (body : Expr) (x name : String) :
    Prop where
  /-- The search stops at the first name that is not taken, and each before it was taken. -/
  found : ∃ i ≤ (r.taken vars body).eraseDups.length, name = Fresh.binder.candidate x i ∧
    ∀ j < i, Fresh.binder.candidate x j ∈ r.taken vars body
  notMem_remaining : ∀ e ∈ r.remaining vars, name ∉ e.freeVars
  notMem_body : name ∉ body.freeVars
  notMem_binders : name ∉ vars.map Variable.name

variable {r : Replacement} {vars : List Variable} {body : Expr} {x : String}

theorem mem_freeVars_without_iff :
    x ∈ (r.without vars).freeVars ↔ ∃ e ∈ r.remaining vars, x ∈ e.freeVars := by
  rw [freeVars, remaining, ← List.mem_flatMap, List.flatMap_append]
  cases (r.without vars).past? with
  | none => rfl
  | some past => rfl

theorem binderName_of_mentioned (h : ∃ e ∈ r.remaining vars, x ∈ e.freeVars) :
    r.binderName vars body x = Fresh.binder x (r.taken vars body) :=
  if_pos (mem_freeVars_without_iff.mpr h)

theorem binderName_of_not_mentioned (h : ∀ e ∈ r.remaining vars, x ∉ e.freeVars) :
    r.binderName vars body x = x := by
  refine if_neg fun hx => ?_
  obtain ⟨e, he, hxe⟩ := mem_freeVars_without_iff.mp hx
  exact h e he hxe

/-- **A bound variable that a replacement mentions gets the first name that is not taken.** -/
theorem renamed_of_mentioned (h : ∃ e ∈ r.remaining vars, x ∈ e.freeVars) :
    r.Renamed vars body x (r.binderName vars body x) := by
  obtain ⟨-, hfree, hbefore, hle⟩ :=
    Fresh.number_first (Fresh.candidate_injective x) 0 (r.taken vars body)
  rw [binderName_of_mentioned h]
  have hnot : Fresh.binder x (r.taken vars body) ∉ r.taken vars body := hfree
  rw [taken, List.mem_append, List.mem_append, not_or, not_or] at hnot
  obtain ⟨⟨hremaining, hbody⟩, hbinders⟩ := hnot
  refine ⟨⟨_, by omega, rfl, fun j hj => hbefore j (Nat.zero_le j) hj⟩, fun e he hx => ?_, hbody,
    hbinders⟩
  exact hremaining (mem_freeVars_without_iff.mpr ⟨e, he, hx⟩)

/-- Bound variables with different names still have different names. -/
theorem nodup_binders (h : (vars.map Variable.name).Nodup) :
    ((r.binders vars body).map Variable.name).Nodup := by
  rw [map_name_binders]
  exact h.map_on fun x hx y hy => binderName_inj hx hy

end Replacement

namespace Expr

/-- **A replacement renames bound variables apart.** A variable of a quantifier keeps its name
unless a replacement that is left mentions it; then the search for a new name ends after at most as
many tries as there are different names taken, and one, and the name that it finds is free in no
such replacement, not free in the body and no name of the quantifier.  Different variables of the
quantifier stay different. -/
theorem binders_renamed_apart (q : Quantifier) (vars : List Variable) (body : Expr)
    (r : Replacement) (inOld : Bool) :
    (Expr.quant q vars body).replace r inOld =
        .quant q (vars.map fun v => v.rename (r.binderName vars body v.name))
          (body.replace (r.under vars body) inOld) ∧
      (∀ v ∈ vars, (∃ e ∈ r.remaining vars, v.name ∈ e.freeVars) →
        r.Renamed vars body v.name (r.binderName vars body v.name)) ∧
      (∀ v ∈ vars, (∀ e ∈ r.remaining vars, v.name ∉ e.freeVars) →
        r.binderName vars body v.name = v.name) ∧
      (∀ v ∈ vars, ∀ w ∈ vars, v.name ≠ w.name →
        r.binderName vars body v.name ≠ r.binderName vars body w.name) ∧
      ((vars.map Variable.name).Nodup → ((r.binders vars body).map Variable.name).Nodup) := by
  refine ⟨by rw [replace, Replacement.binders], fun v _ h => Replacement.renamed_of_mentioned h,
    fun v _ h => Replacement.binderName_of_not_mentioned h, fun v hv w hw hne h => ?_,
    Replacement.nodup_binders⟩
  exact hne (Replacement.binderName_inj (List.mem_map_of_mem hv) (List.mem_map_of_mem hw) h)

end Expr

namespace Counter

/-- The variable `x` has to give way to the `x` that replaces `y`, and `x#0` is bound beside it. -/
def crowdedVars : List Variable :=
  [{ name := "x", type := .int }, { name := "x#0", type := .int }]

def crowdedBody : Expr := .binary .lt (.var "x#0") (.binary .add (.var "x") (.var "y"))

def crowded : Replacement := { current := Table.ofList [("y", .var "x")] }

theorem binders_renamed_apart_crowded :
    (∃ e ∈ crowded.remaining crowdedVars, "x" ∈ e.freeVars) ∧
      (crowdedVars.map Variable.name).Nodup ∧
      (crowded.binders crowdedVars crowdedBody).map Variable.name = ["x#1", "x#0"] ∧
      ((crowded.binders crowdedVars crowdedBody).map Variable.name).Nodup ∧
      crowded.Renamed crowdedVars crowdedBody "x"
        (crowded.binderName crowdedVars crowdedBody "x") := by
  obtain ⟨-, hrenamed, -, -, hnodup⟩ :=
    Expr.binders_renamed_apart .all crowdedVars crowdedBody crowded false
  have hx : ∃ e ∈ crowded.remaining crowdedVars, "x" ∈ e.freeVars :=
    ⟨.var "x", List.mem_cons_self, by decide⟩
  have hn : (crowdedVars.map Variable.name).Nodup := by decide
  exact ⟨hx, hn, by decide, hnodup hn, hrenamed _ List.mem_cons_self hx⟩

end Counter

end LayerCheck
