import LayerCheck.Proofs.Expr.Subst

/-!
# Taking `old` away

With a second substitution for what stands below `old`, every `old` goes, however deep it stands:
the result is read in the current state alone, where two copies of the variables keep both states
apart.  An `old` in the result can only come from a replacement.

* `Expr.hasOld`: whether `old` occurs anywhere in an expression.
* `Expr.hasOld_replace`: no `old` is left.
* `Expr.old_eliminated`: what is left means the same.
-/

namespace LayerCheck

namespace Expr

mutual

/-- Whether `old` occurs in the expression, bound variables or not. -/
def hasOld : Expr → Bool
  | .bool _ => false
  | .int _ => false
  | .var _ => false
  | .old _ => true
  | .not e => e.hasOld
  | .binary _ a b => a.hasOld || b.hasOld
  | .app _ args => listHasOld args
  | .quant _ _ body => body.hasOld

def listHasOld : List Expr → Bool
  | [] => false
  | e :: es => e.hasOld || listHasOld es

end

end Expr

namespace Replacement

variable {r : Replacement} {b : Bool}

/-- No variable is replaced by an expression with `old`. -/
def OldFree (r : Replacement) : Prop := ∀ b x e, r.get? b x = some e → e.hasOld = false

/-- Below a quantifier, nothing but variables joins the replacements. -/
theorem OldFree.under (h : r.OldFree) (vars : List Variable) (body : Expr) :
    (r.under vars body).OldFree := by
  intro b x e he
  rw [get?_under] at he
  by_cases hx : x ∈ vars.map Variable.name ∧ r.binderName vars body x ≠ x
  · rw [if_pos hx, Option.some_inj] at he
    rw [← he]
    rfl
  · rw [if_neg hx, get?_without] at he
    by_cases hv : x ∈ vars.map Variable.name
    · rw [if_pos hv] at he
      cases he
    · rw [if_neg hv] at he
      exact h b x e he

end Replacement

namespace Expr

open Interpretation

variable {M : Interpretation}

mutual

/-- **Where `old` is taken away, none is left but in replacements.** -/
theorem hasOld_replace (e : Expr) {r : Replacement} (hp : r.past?.isSome = true)
    (hr : r.OldFree) (b : Bool) : (e.replace r b).hasOld = false := by
  cases e with
  | bool c => rfl
  | int n => rfl
  | var x =>
    rw [replace]
    cases h : r.get? b x with
    | none => rfl
    | some e => exact hr b x e h
  | old e =>
    rw [replace, if_pos hp]
    exact e.hasOld_replace hp hr true
  | not e =>
    rw [replace, hasOld]
    exact e.hasOld_replace hp hr b
  | binary op l k =>
    rw [replace, hasOld, l.hasOld_replace hp hr b, k.hasOld_replace hp hr b]
    rfl
  | app f args =>
    rw [replace, hasOld]
    exact listHasOld_replaceList args hp hr b
  | quant q vars body =>
    rw [replace, hasOld]
    exact body.hasOld_replace ((Replacement.isSome_past?_under ..).trans hp)
      (hr.under vars body) b

theorem listHasOld_replaceList (es : List Expr) {r : Replacement} (hp : r.past?.isSome = true)
    (hr : r.OldFree) (b : Bool) : listHasOld (replaceList r b es) = false := by
  cases es with
  | nil => rfl
  | cons e es =>
    rw [replaceList, listHasOld, e.hasOld_replace hp hr b, listHasOld_replaceList es hp hr b]
    rfl

end

/-- **Taking `old` away keeps the meaning.** Outside `old` a variable has the value of its
replacement by `always`; the earlier state is that of the replacements by `forOld`, then of those by
`always`, and both are read where the result is.  The result has no `old` if the replacements have
none. -/
theorem old_eliminated (e : Expr) (always forOld : Subst) :
    (∀ (M : Interpretation) (cur pre : M.State),
      (e.substOld always forOld).eval cur pre =
        e.eval (fun x => ((always.get? x).map fun r => r.eval cur pre).getD (cur x))
          (fun x => (((forOld.get? x).or (always.get? x)).map fun r => r.eval cur pre).getD
            (cur x))) ∧
      ((∀ r ∈ always.values ++ forOld.values, r.hasOld = false) →
        (e.substOld always forOld).hasOld = false) := by
  constructor
  · intro M cur pre
    have henv : ∀ b x, Replacement.env { current := always, past? := some forOld } b cur pre x =
        ((Replacement.get? { current := always, past? := some forOld } b x).map
          fun r => r.eval cur pre).getD (cur x) := by
      intro b x
      cases h : Replacement.get? { current := always, past? := some forOld } b x with
      | none => exact Replacement.env_of_none h
      | some r => exact Replacement.env_of_get? h
    rw [eval_substOld]
    exact congrArg₂ (fun c p => e.eval c p) (funext (henv false)) (funext (henv true))
  · intro h
    refine e.hasOld_replace rfl ?_ false
    intro b x r hr
    have hmem : ∀ {s : Subst}, s.get? x = some r → r ∈ s.values :=
      fun hs => Table.mem_values.mpr ⟨x, hs⟩
    cases b with
    | false => exact h r (List.mem_append_left _ (hmem hr))
    | true =>
      rcases Option.or_eq_some_iff.mp hr with hf | ⟨-, ha⟩
      · exact h r (List.mem_append_right _ (hmem hf))
      · exact h r (List.mem_append_left _ (hmem ha))

end Expr

namespace Counter

/-- A condition on the state before, with one `old` below another and under a quantifier. -/
def twiceOld : Expr :=
  .quant .all [{ name := "y", type := .int }]
    (.binary .ge (.var "y") (.old (.binary .add (.var "x") (.old (.var "x")))))

/-- The state before is kept in a variable of the name that the quantifier binds. -/
def copied : Subst := Table.ofList [("x", .var "y")]

theorem old_eliminated_twice :
    twiceOld.hasOld = true ∧ (∀ r ∈ (∅ : Subst).values ++ copied.values, r.hasOld = false) ∧
      (twiceOld.substOld ∅ copied).hasOld = false := by
  have hr : ∀ r ∈ (∅ : Subst).values ++ copied.values, r.hasOld = false := by
    intro r hr
    rw [List.mem_singleton.mp hr]
    rfl
  exact ⟨rfl, hr, (twiceOld.old_eliminated ∅ copied).2 hr⟩

end Counter

end LayerCheck
