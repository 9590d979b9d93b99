import LayerCheck.Expr.FreeVars
import Mathlib.Data.List.Forall2
import Mathlib.Data.Set.Operations
import Mathlib.Logic.Function.Basic

/-!
# The two-state meaning of expressions

An expression is read in a current and an earlier state, and `old` makes the earlier state the
current one as well.  A quantifier binds its variables in both states, to values of their types.
Operators, functions and types mean whatever an `Interpretation` says; `Interpretation.Standard`
fixes the logical connectives.

* `Expr.eval`: the value of an expression.
* `Expr.eval_congr`: only the values of the free variables count.
* `Counter.model`: an interpretation, for examples.
-/

namespace LayerCheck

/-- A meaning for all that expressions are made of. -/
structure Interpretation where
  Value : Type
  bool : Bool → Value
  int : Int → Value
  not : Value → Value
  binary : BinOp → Value → Value → Value
  app : String → List Value → Value
  /-- The values of a type. -/
  carrier : Ty → Set Value
  /-- What a quantifier makes of the values that its body takes. -/
  quant : Quantifier → Set Value → Value

namespace Interpretation

variable {M : Interpretation}

abbrev State (M : Interpretation) : Type := String → M.Value

def Holds (M : Interpretation) (v : M.Value) : Prop := v = M.bool true

/-- The values are values of the types of the variables. -/
def Fits (M : Interpretation) (vars : List Variable) (vals : List M.Value) : Prop :=
  List.Forall₂ (fun v a => a ∈ M.carrier v.type) vars vals

/-- Gives the variables the values, one after the other. -/
def setAll (s : M.State) : List String → List M.Value → M.State
  | x :: xs, a :: vs => setAll (Function.update s x a) xs vs
  | _, _ => s

/-- The logical connectives have their usual meaning. -/
structure Standard (M : Interpretation) : Prop where
  consistent : M.bool false ≠ M.bool true
  not {a : M.Value} : M.Holds (M.not a) ↔ ¬ M.Holds a
  and {a b : M.Value} : M.Holds (M.binary .and a b) ↔ M.Holds a ∧ M.Holds b
  or {a b : M.Value} : M.Holds (M.binary .or a b) ↔ M.Holds a ∨ M.Holds b
  implies {a b : M.Value} : M.Holds (M.binary .implies a b) ↔ (M.Holds a → M.Holds b)
  eq {a b : M.Value} : M.Holds (M.binary .eq a b) ↔ a = b
  ne {a b : M.Value} : M.Holds (M.binary .ne a b) ↔ a ≠ b
  all {A : Set M.Value} : M.Holds (M.quant .all A) ↔ ∀ a ∈ A, M.Holds a
  some {A : Set M.Value} : M.Holds (M.quant .some A) ↔ ∃ a ∈ A, M.Holds a

/-! ## Binding variables -/

theorem Fits.length_eq {vars : List Variable} {vals : List M.Value} (h : M.Fits vars vals) :
    (vars.map Variable.name).length = vals.length := by
  rw [List.length_map]
  exact List.Forall₂.length_eq h

@[simp] theorem setAll_nil (s : M.State) (vs : List M.Value) : setAll s [] vs = s := rfl

theorem setAll_of_notMem {s : M.State} {xs : List String} {vs : List M.Value} {x : String}
    (hx : x ∉ xs) : setAll s xs vs x = s x := by
  induction xs generalizing s vs with
  | nil => rfl
  | cons y ys ih =>
    rw [List.mem_cons, not_or] at hx
    cases vs with
    | nil => rfl
    | cons a vs => rw [setAll, ih hx.2, Function.update_of_ne hx.1]

/-- Bound variables do not see the state; the others see nothing else. -/
theorem setAll_congr {s t : M.State} {xs : List String} {vs : List M.Value} {x : String}
    (hl : xs.length = vs.length) (h : x ∉ xs → s x = t x) :
    setAll s xs vs x = setAll t xs vs x := by
  induction xs generalizing s t vs with
  | nil => exact h List.not_mem_nil
  | cons y ys ih =>
    cases vs with
    | nil => simp at hl
    | cons a vs =>
      refine ih (by simpa using hl) fun hx => ?_
      by_cases hy : x = y
      · rw [hy, Function.update_self, Function.update_self]
      · rw [Function.update_of_ne hy, Function.update_of_ne hy]
        exact h fun hm => (List.mem_cons.mp hm).elim hy hx

/-- New names for bound variables make no difference if no two become one. -/
theorem setAll_map {s t : M.State} {xs : List String} {vs : List M.Value} {f : String → String}
    (hl : xs.length = vs.length) (hf : ∀ x ∈ xs, ∀ y ∈ xs, f x = f y → x = y) {x : String}
    (hx : x ∈ xs) : setAll s (xs.map f) vs (f x) = setAll t xs vs x := by
  have aux : ∀ (ys : List String) (ws : List M.Value) (s t : M.State), ys ⊆ xs →
      ys.length = ws.length → (x ∉ ys → s (f x) = t x) →
      setAll s (ys.map f) ws (f x) = setAll t ys ws x := by
    intro ys
    induction ys with
    | nil => exact fun _ _ _ _ _ h => h List.not_mem_nil
    | cons y ys ih =>
      intro ws s t hs hl h
      cases ws with
      | nil => simp at hl
      | cons a ws =>
        refine ih ws _ _ (fun z hz => hs (List.mem_cons_of_mem _ hz)) (by simpa using hl) ?_
        intro hxy
        by_cases hy : x = y
        · rw [hy, Function.update_self, Function.update_self]
        · have hfy : f x ≠ f y := fun he => hy (hf x hx y (hs List.mem_cons_self) he)
          rw [Function.update_of_ne hfy, Function.update_of_ne hy]
          exact h fun hm => (List.mem_cons.mp hm).elim hy hxy
  exact aux xs vs s t (fun _ h => h) hl fun h => absurd hx h

end Interpretation

namespace Expr

open Interpretation

variable {M : Interpretation}

mutual

/-- The value of an expression in a current and an earlier state. -/
def eval (cur pre : M.State) : Expr → M.Value
  | .bool b => M.bool b
  | .int n => M.int n
  | .var x => cur x
  | .old e => e.eval pre pre
  | .not e => M.not (e.eval cur pre)
  | .binary op a b => M.binary op (a.eval cur pre) (b.eval cur pre)
  | .app f args => M.app f (evalList cur pre args)
  | .quant q vars body => M.quant q
    {w | ∃ vals, M.Fits vars vals ∧ body.eval (setAll cur (vars.map Variable.name) vals)
      (setAll pre (vars.map Variable.name) vals) = w}

def evalList (cur pre : M.State) : List Expr → List M.Value
  | [] => []
  | e :: es => e.eval cur pre :: evalList cur pre es

end

mutual

/-- **An expression reads its free variables only.** -/
theorem eval_congr (e : Expr) {c c' p p' : M.State} (hc : ∀ x ∈ e.occurrences, c x = c' x)
    (hp : ∀ x ∈ e.occurrences, p x = p' x) : e.eval c p = e.eval c' p' := by
  cases e with
  | bool b => rfl
  | int n => rfl
  | var x => exact hc x List.mem_cons_self
  | old e => exact e.eval_congr hp hp
  | not e => exact congrArg M.not (e.eval_congr hc hp)
  | binary op a b =>
    rw [eval, eval, a.eval_congr (fun x hx => hc x (List.mem_append_left _ hx))
        (fun x hx => hp x (List.mem_append_left _ hx)),
      b.eval_congr (fun x hx => hc x (List.mem_append_right _ hx))
        (fun x hx => hp x (List.mem_append_right _ hx))]
  | app f args => exact congrArg (M.app f) (evalList_congr args hc hp)
  | quant q vars body =>
    have hfree : ∀ x ∈ body.occurrences, x ∉ vars.map Variable.name →
        x ∈ (Expr.quant q vars body).occurrences :=
      fun x hx hv => List.mem_filter.mpr ⟨hx, by simpa using hv⟩
    have hbody : ∀ vals, M.Fits vars vals →
        body.eval (setAll c (vars.map Variable.name) vals) (setAll p (vars.map Variable.name) vals) =
          body.eval (setAll c' (vars.map Variable.name) vals)
            (setAll p' (vars.map Variable.name) vals) := fun vals hv =>
      body.eval_congr (fun x hx => setAll_congr hv.length_eq fun h => hc x (hfree x hx h))
        (fun x hx => setAll_congr hv.length_eq fun h => hp x (hfree x hx h))
    rw [eval, eval]
    congr 1
    ext w
    exact exists_congr fun vals => and_congr_right fun hv => by rw [hbody vals hv]

theorem evalList_congr (es : List Expr) {c c' p p' : M.State}
    (hc : ∀ x ∈ occurrencesOfList es, c x = c' x)
    (hp : ∀ x ∈ occurrencesOfList es, p x = p' x) : evalList c p es = evalList c' p' es := by
  cases es with
  | nil => rfl
  | cons e es =>
    rw [evalList, evalList, e.eval_congr (fun x hx => hc x (List.mem_append_left _ hx))
        (fun x hx => hp x (List.mem_append_left _ hx)),
      evalList_congr es (fun x hx => hc x (List.mem_append_right _ hx))
        (fun x hx => hp x (List.mem_append_right _ hx))]

end

end Expr

/-! ## Truth values and integers -/

namespace Counter

open Classical in
noncomputable def truth (p : Prop) : Bool ⊕ Int := .inl (decide p)

open Classical in
theorem truth_eq {p : Prop} : truth p = .inl true ↔ p := by
  rw [truth, Sum.inl.injEq, decide_eq_true_iff]

/-- Values are truth values and integers. -/
noncomputable def model : Interpretation where
  Value := Bool ⊕ Int
  bool := .inl
  int := .inr
  not a := truth (a ≠ .inl true)
  binary
    | .and, a, b => truth (a = .inl true ∧ b = .inl true)
    | .or, a, b => truth (a = .inl true ∨ b = .inl true)
    | .implies, a, b => truth (a = .inl true → b = .inl true)
    | .eq, a, b => truth (a = b)
    | .ne, a, b => truth (a ≠ b)
    | .lt, .inr m, .inr n => truth (m < n)
    | .le, .inr m, .inr n => truth (m ≤ n)
    | .gt, .inr m, .inr n => truth (n < m)
    | .ge, .inr m, .inr n => truth (n ≤ m)
    | .add, .inr m, .inr n => .inr (m + n)
    | .sub, .inr m, .inr n => .inr (m - n)
    | _, a, _ => a
  app _ _ := .inl false
  carrier
    | .bool => Set.range .inl
    | .int => Set.range .inr
    | _ => Set.univ
  quant
    | .all, A => truth (∀ a ∈ A, a = .inl true)
    | .some, A => truth (∃ a ∈ A, a = .inl true)

theorem standard_model : model.Standard where
  consistent h := by cases h
  not := truth_eq
  and := truth_eq
  or := truth_eq
  implies := truth_eq
  eq := truth_eq
  ne := truth_eq
  all := truth_eq
  some := truth_eq

end Counter

end LayerCheck
