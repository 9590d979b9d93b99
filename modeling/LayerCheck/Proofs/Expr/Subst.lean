import LayerCheck.Expr.Subst
import LayerCheck.Proofs.Expr.Eval
import LayerCheck.Proofs.Expr.Fresh
import LayerCheck.Proofs.Table

/-!
# Substitution means what it should

Replacing variables in an expression gives the value that the expression has in the state in which
these variables stand for the values of their replacements.  Below `old` that state is another one
if `old` is taken away.  No variable of a replacement is captured, since the bound variables that
would capture one get fresh names, and no two of them get the same.

* `Replacement.binderName_notMem_freeVars`, `Replacement.binderName_inj`: the names of bound
  variables.
* `Replacement.image`: what stands for a variable; below a quantifier nothing of it is captured.
* `Replacement.env`, `Replacement.preEnv`: the states in which the expression is read.
* `Expr.eval_replace`: the value after the replacement.
* `Expr.eval_subst`: the value after a substitution that keeps `old`.
* `Subst.env`: a substitution as a state.
-/

namespace LayerCheck

/-- Variables that stand for others are looked up by name. -/
theorem Subst.get?_renaming (f : String → String) (vars : List Variable) (x : String) :
    (Table.ofList (vars.map fun v => (v.name, (v.rename (f v.name)).expr)) : Subst).get? x =
      if x ∈ vars.map Variable.name then some (.var (f x)) else none := by
  have hall : ∀ vs : List Variable,
      ((vs.map fun v => (v.name, (v.rename (f v.name)).expr)).lookup x) =
        if x ∈ vs.map Variable.name then some (.var (f x)) else none := by
    intro vs
    induction vs with
    | nil => simp
    | cons v vs ih =>
      rw [List.map_cons, List.lookup_cons, List.map_cons]
      by_cases hx : x = v.name
      · simp [hx, Variable.expr, Variable.rename]
      · have hb : (x == v.name) = false := by simpa using hx
        rw [hb]
        simpa [hx] using ih
  rw [Table.get?_ofList, ← List.map_reverse, hall]
  simp

namespace Replacement

open Interpretation

variable {M : Interpretation} {r : Replacement} {vars : List Variable} {body : Expr} {b : Bool}
  {x y : String}

/-! ## Looking up a replacement -/

theorem get?_without (r : Replacement) (vars : List Variable) (b : Bool) (x : String) :
    (r.without vars).get? b x = if x ∈ vars.map Variable.name then none else r.get? b x := by
  obtain ⟨current, past?⟩ := r
  cases b with
  | false => simp [get?, without, Subst.without, Table.get?_eraseAll]
  | true =>
    cases past? with
    | none => simp [get?, without, Subst.without, Table.get?_eraseAll]
    | some past =>
      by_cases hx : x ∈ vars.map Variable.name
      · simp [get?, without, Subst.without, Table.get?_eraseAll, hx]
      · simp only [get?, without, Subst.without, Option.map_some, Option.bind_some,
          Table.get?_eraseAll, if_neg hx]

theorem get?_insert (r : Replacement) (y : String) (e : Expr) (b : Bool) (x : String) :
    (r.insert y e).get? b x = if x = y then some e else r.get? b x := by
  obtain ⟨current, past?⟩ := r
  cases b with
  | false => simp [get?, insert, Table.get?_insert]
  | true =>
    cases past? with
    | none => simp [get?, insert, Table.get?_insert]
    | some past =>
      by_cases hx : x = y
      · simp [get?, insert, Table.get?_insert, hx]
      · simp only [get?, insert, Option.map_some, Option.bind_some, Table.get?_insert, if_neg hx]

theorem mem_freeVars_of_get? {e : Expr} (he : r.get? b x = some e) (hy : y ∈ e.freeVars) :
    y ∈ r.freeVars := by
  have hs : ∀ {s : Subst}, s.get? x = some e → y ∈ s.freeVars := fun hs =>
    List.mem_flatMap.mpr ⟨e, Table.mem_values.mpr ⟨x, hs⟩, hy⟩
  rw [freeVars, List.mem_append]
  cases b with
  | false => exact .inl (hs he)
  | true =>
    rw [get?, if_pos rfl, Option.or_eq_some_iff] at he
    rcases he with he | ⟨-, he⟩
    · obtain ⟨past, hp, he⟩ := Option.bind_eq_some_iff.mp he
      rw [hp]
      exact .inr (hs he)
    · exact .inl (hs he)

/-! ## The names of bound variables -/

/-- A bound variable keeps its name, or gets a fresh one. -/
theorem binderName_eq (r : Replacement) (vars : List Variable) (body : Expr) (x : String) :
    (r.binderName vars body x = x ∧ x ∉ (r.without vars).freeVars) ∨
      ∃ taken, r.binderName vars body x = Fresh.binder x taken ∧
        taken = (r.without vars).freeVars ++ body.freeVars ++ vars.map Variable.name := by
  rw [binderName]
  by_cases hx : x ∈ (r.without vars).freeVars
  · right
    exact ⟨_, if_pos hx, rfl⟩
  · left
    exact ⟨if_neg hx, hx⟩

/-- **A bound variable captures no variable of a replacement.** -/
theorem binderName_notMem_freeVars (r : Replacement) (vars : List Variable) (body : Expr)
    (x : String) : r.binderName vars body x ∉ (r.without vars).freeVars := by
  rcases r.binderName_eq vars body x with ⟨h, hx⟩ | ⟨taken, h, rfl⟩
  · rwa [h]
  · rw [h]
    exact fun hm => Fresh.binder_notMem x _ (List.mem_append_left _ (List.mem_append_left _ hm))

/-- A bound variable captures no variable that was free in the body. -/
theorem binderName_ne (hx : x ∈ vars.map Variable.name) (hy : y ∈ body.freeVars)
    (hv : y ∉ vars.map Variable.name) : r.binderName vars body x ≠ y := by
  rintro rfl
  rcases r.binderName_eq vars body x with ⟨h, -⟩ | ⟨taken, h, rfl⟩
  · rw [h] at hv
    exact hv hx
  · rw [h] at hy
    exact Fresh.binder_notMem x _ (List.mem_append_left _ (List.mem_append_right _ hy))

/-- **Different variables that are bound together get different names.** -/
theorem binderName_inj (hx : x ∈ vars.map Variable.name) (hy : y ∈ vars.map Variable.name)
    (h : r.binderName vars body x = r.binderName vars body y) : x = y := by
  have hfresh : ∀ (z : String) (taken : List String),
      Fresh.binder z (taken ++ vars.map Variable.name) ∉ vars.map Variable.name :=
    fun z _ h => Fresh.binder_notMem z _ (List.mem_append_right _ h)
  rcases r.binderName_eq vars body x with ⟨hxn, -⟩ | ⟨tx, hxn, rfl⟩
  · rcases r.binderName_eq vars body y with ⟨hyn, -⟩ | ⟨ty, hyn, rfl⟩
    · rw [← hxn, h, hyn]
    · rw [← hxn, h, hyn] at hx
      exact absurd hx (hfresh y _)
  · rcases r.binderName_eq vars body y with ⟨hyn, -⟩ | ⟨ty, hyn, rfl⟩
    · rw [← hyn, ← h, hxn] at hy
      exact absurd hy (hfresh x _)
    · rw [hxn, hyn] at h
      exact Fresh.base_eq_of_binder_eq h

theorem map_name_binders (r : Replacement) (vars : List Variable) (body : Expr) :
    (r.binders vars body).map Variable.name =
      (vars.map Variable.name).map (r.binderName vars body) := by
  rw [binders, List.map_map, List.map_map]
  rfl

theorem fits_binders_iff {vals : List M.Value} :
    M.Fits (r.binders vars body) vals ↔ M.Fits vars vals := by
  rw [Fits, binders, List.forall₂_map_left_iff]
  rfl

/-- Below a quantifier, renamed variables are replaced and the others are as they were. -/
theorem get?_under (r : Replacement) (vars : List Variable) (body : Expr) (b : Bool)
    (x : String) :
    (r.under vars body).get? b x =
      if x ∈ vars.map Variable.name ∧ r.binderName vars body x ≠ x then
        some (.var (r.binderName vars body x))
      else (r.without vars).get? b x := by
  have hfold : ∀ (vs : List Variable) (inner : Replacement),
      (vs.foldl (fun inner v =>
        if r.binderName vars body v.name = v.name then inner
        else inner.insert v.name (.var (r.binderName vars body v.name))) inner).get? b x =
      if x ∈ vs.map Variable.name ∧ r.binderName vars body x ≠ x then
        some (.var (r.binderName vars body x))
      else inner.get? b x := by
    intro vs
    induction vs with
    | nil => simp
    | cons v vs ih =>
      intro inner
      rw [List.foldl_cons, ih]
      by_cases hv : r.binderName vars body v.name = v.name
      · by_cases hx : x = v.name
        · subst hx
          simp [hv]
        · simp [hv, hx]
      · by_cases hx : x = v.name
        · subst hx
          simp [hv, get?_insert]
        · simp [hv, hx, get?_insert]
  exact hfold vars _

/-! ## What stands for a variable -/

/-- What a variable is replaced by, itself if it is not replaced. -/
def image (r : Replacement) (inOld : Bool) (x : String) : Expr := (r.get? inOld x).getD (.var x)

/-- Below a quantifier, a variable that it binds stands for itself, under the new name. -/
theorem image_under_of_mem (hx : x ∈ vars.map Variable.name) :
    (r.under vars body).image b x = .var (r.binderName vars body x) := by
  rw [image, get?_under]
  by_cases hn : r.binderName vars body x = x
  · rw [if_neg fun h => h.2 hn, get?_without, if_pos hx, Option.getD_none, hn]
  · rw [if_pos ⟨hx, hn⟩, Option.getD_some]

theorem image_under_of_notMem (hx : x ∉ vars.map Variable.name) :
    (r.under vars body).image b x = r.image b x := by
  rw [image, image, get?_under, if_neg fun h => hx h.1, get?_without, if_neg hx]

/-- **No variable of what stands for a free variable is captured.** -/
theorem notMem_binders (hx : x ∈ body.freeVars) (hv : x ∉ vars.map Variable.name)
    (hy : y ∈ (r.image b x).occurrences) : y ∉ (r.binders vars body).map Variable.name := by
  rw [map_name_binders]
  intro h
  obtain ⟨z, hz, rfl⟩ := List.mem_map.mp h
  rw [image] at hy
  cases he : r.get? b x with
  | none =>
    rw [he, Option.getD_none, Expr.occurrences, List.mem_singleton] at hy
    exact binderName_ne hz hx hv hy
  | some e =>
    rw [he, Option.getD_some] at hy
    have hw : (r.without vars).get? b x = some e := by rw [get?_without, if_neg hv, he]
    exact r.binderName_notMem_freeVars vars body z
      (mem_freeVars_of_get? hw (Expr.mem_freeVars.mpr hy))

/-! ## The states in which an expression is read -/

/-- The state in which variables stand for the values of their replacements. -/
def env (r : Replacement) (inOld : Bool) (cur pre : M.State) : M.State := fun x =>
  match r.get? inOld x with
  | some e => e.eval cur pre
  | none => cur x

/-- The earlier state. If `old` is taken away, what stands below is read in the current state. -/
def preEnv (r : Replacement) (cur pre : M.State) : M.State :=
  if r.past?.isSome then r.env true cur pre else r.env false pre pre

theorem env_of_get? {e : Expr} {cur pre : M.State} (h : r.get? b x = some e) :
    r.env b cur pre x = e.eval cur pre := by
  rw [env, h]

theorem env_of_none {cur pre : M.State} (h : r.get? b x = none) : r.env b cur pre x = cur x := by
  rw [env, h]

theorem env_eq_eval_image {cur pre : M.State} :
    r.env b cur pre x = (r.image b x).eval cur pre := by
  rw [image]
  cases h : r.get? b x with
  | none => exact env_of_none h
  | some e => exact env_of_get? h

theorem get?_eq_of_past?_eq_none (h : r.past? = none) (b : Bool) (x : String) :
    r.get? b x = r.get? false x := by
  cases b <;> simp [get?, h]

theorem isSome_past?_without (r : Replacement) (vars : List Variable) :
    (r.without vars).past?.isSome = r.past?.isSome := by
  simp [without]

theorem isSome_past?_under (r : Replacement) (vars : List Variable) (body : Expr) :
    (r.under vars body).past?.isSome = r.past?.isSome := by
  have hfold : ∀ (vs : List Variable) (inner : Replacement),
      (vs.foldl (fun inner v =>
        if r.binderName vars body v.name = v.name then inner
        else inner.insert v.name (.var (r.binderName vars body v.name))) inner).past?.isSome =
      inner.past?.isSome := by
    intro vs
    induction vs with
    | nil => exact fun _ => rfl
    | cons v vs ih =>
      intro inner
      rw [List.foldl_cons, ih]
      split
      · rfl
      · simp [insert]
  exact (hfold vars _).trans (r.isSome_past?_without vars)

/-- **Below a quantifier, the variables of the body stand for what they stand for around it.** -/
theorem env_under {cur pre : M.State} {vals : List M.Value} (hv : M.Fits vars vals)
    (hx : x ∈ body.freeVars) :
    (r.under vars body).env b (setAll cur ((r.binders vars body).map Variable.name) vals)
      (setAll pre ((r.binders vars body).map Variable.name) vals) x =
      setAll (r.env b cur pre) (vars.map Variable.name) vals x := by
  rw [env_eq_eval_image]
  by_cases hm : x ∈ vars.map Variable.name
  · rw [image_under_of_mem hm, Expr.eval, map_name_binders]
    exact setAll_map hv.length_eq (fun y hy z hz h => binderName_inj hy hz h) hm
  · rw [image_under_of_notMem hm, setAll_of_notMem hm, env_eq_eval_image]
    have hfree : ∀ y ∈ (r.image b x).occurrences,
        y ∉ (r.binders vars body).map Variable.name := fun y hy => notMem_binders hx hm hy
    exact (r.image b x).eval_congr (fun y hy => setAll_of_notMem (hfree y hy))
      (fun y hy => setAll_of_notMem (hfree y hy))

theorem preEnv_under {cur pre : M.State} {vals : List M.Value} (hv : M.Fits vars vals)
    (hx : x ∈ body.freeVars) :
    (r.under vars body).preEnv (setAll cur ((r.binders vars body).map Variable.name) vals)
      (setAll pre ((r.binders vars body).map Variable.name) vals) x =
      setAll (r.preEnv cur pre) (vars.map Variable.name) vals x := by
  rw [preEnv, preEnv, isSome_past?_under]
  split
  · exact env_under hv hx
  · exact env_under hv hx

end Replacement

namespace Expr

open Interpretation

variable {M : Interpretation}

mutual

/-- **After a replacement, an expression has the value that it has where its variables stand for
their replacements.** -/
theorem eval_replace (e : Expr) (r : Replacement) (b : Bool) (cur pre : M.State) :
    (e.replace r b).eval cur pre = e.eval (r.env b cur pre) (r.preEnv cur pre) := by
  cases e with
  | bool c => rfl
  | int n => rfl
  | var x =>
    rw [replace, eval, Replacement.env_eq_eval_image, Replacement.image]
  | old e =>
    rw [replace, eval]
    cases h : r.past? with
    | none =>
      rw [if_neg (by decide), eval, e.eval_replace r b pre pre, Replacement.preEnv, h,
        if_neg (by decide), Replacement.preEnv, h, if_neg (by decide)]
      have hb : r.env b pre pre = r.env false pre pre := by
        funext x
        rw [Replacement.env, Replacement.env, Replacement.get?_eq_of_past?_eq_none h b]
      rw [hb]
    | some past =>
      have hp : (some past).isSome = true := rfl
      rw [if_pos hp, e.eval_replace r true cur pre, Replacement.preEnv, h, if_pos hp]
  | not e => rw [replace, eval, eval, e.eval_replace r b]
  | binary op l k => rw [replace, eval, eval, l.eval_replace r b, k.eval_replace r b]
  | app f args => rw [replace, eval, eval, evalList_replaceList args r b]
  | quant q vars body =>
    rw [replace, eval, eval]
    congr 1
    ext w
    have hbody : ∀ vals, M.Fits vars vals →
        (body.replace (r.under vars body) b).eval
          (setAll cur ((r.binders vars body).map Variable.name) vals)
          (setAll pre ((r.binders vars body).map Variable.name) vals) =
        body.eval (setAll (r.env b cur pre) (vars.map Variable.name) vals)
          (setAll (r.preEnv cur pre) (vars.map Variable.name) vals) := by
      intro vals hv
      rw [body.eval_replace]
      exact body.eval_congr
        (fun x hx => Replacement.env_under hv (mem_freeVars.mpr hx))
        (fun x hx => Replacement.preEnv_under hv (mem_freeVars.mpr hx))
    refine exists_congr fun vals => ?_
    rw [Replacement.fits_binders_iff]
    exact and_congr_right fun hv => by rw [hbody vals hv]

theorem evalList_replaceList (es : List Expr) (r : Replacement) (b : Bool) (cur pre : M.State) :
    evalList cur pre (replaceList r b es) = evalList (r.env b cur pre) (r.preEnv cur pre) es := by
  cases es with
  | nil => rfl
  | cons e es =>
    rw [replaceList, evalList, evalList, e.eval_replace r b, evalList_replaceList es r b]

end

/-- **A substitution changes the states in which an expression is read.** What a variable is
replaced by is read in both states, and in the earlier one alone where the variable stands below
`old`. -/
theorem eval_subst (e : Expr) (s : Subst) (cur pre : M.State) :
    (e.subst s).eval cur pre =
      e.eval (fun x => ((s.get? x).map fun r => r.eval cur pre).getD (cur x))
        (fun x => ((s.get? x).map fun r => r.eval pre pre).getD (pre x)) := by
  have henv : ∀ cur' pre' : M.State, Replacement.env { current := s } false cur' pre' =
      fun x => ((s.get? x).map fun r => r.eval cur' pre').getD (cur' x) := by
    intro cur' pre'
    funext x
    cases h : s.get? x with
    | none => exact Replacement.env_of_none h
    | some r => exact Replacement.env_of_get? h
  rw [subst, e.eval_replace, Replacement.preEnv, if_neg (by simp), henv, henv]

/-- Where `old` is taken away, it is the second substitution that makes the earlier state. -/
theorem eval_substOld (e : Expr) (always forOld : Subst) (cur pre : M.State) :
    (e.substOld always forOld).eval cur pre =
      e.eval (Replacement.env { current := always, past? := some forOld } false cur pre)
        (Replacement.env { current := always, past? := some forOld } true cur pre) :=
  e.eval_replace _ false cur pre

end Expr

/-! ## Substitutions as states -/

namespace Subst

open Interpretation

variable {M : Interpretation}

/-- The state in which the variables stand for what replaces them. -/
def env (s : Subst) (cur pre : M.State) : M.State := fun x =>
  match s.get? x with
  | some e => e.eval cur pre
  | none => cur x

theorem env_insert (s : Subst) (x : String) (e : Expr) (cur pre : M.State) :
    env (s.insert x e) cur pre = Function.update (env s cur pre) x (e.eval cur pre) := by
  funext y
  by_cases hy : y = x
  · simp [env, Table.get?_insert, hy]
  · simp [env, Table.get?_insert, hy]

theorem env_insertAll (s : Subst) (xs : List String) (es : List Expr) (cur pre : M.State) :
    env (s.insertAll (xs.zip es)) cur pre =
      setAll (env s cur pre) xs (es.map (·.eval cur pre)) := by
  induction xs generalizing s es with
  | nil => rfl
  | cons x xs ih =>
    cases es with
    | nil => rfl
    | cons e es =>
      have hs : s.insertAll ((x :: xs).zip (e :: es)) = (s.insert x e).insertAll (xs.zip es) := rfl
      rw [hs, ih, env_insert, List.map_cons, setAll]

/-- **Formals have the values of the actuals, by position.** -/
theorem env_ofFormals (formals : List Variable) (actuals : List Expr) (cur pre : M.State) :
    env (ofFormals formals actuals) cur pre =
      setAll cur (formals.map Variable.name) (actuals.map (·.eval cur pre)) := by
  have hempty : env Table.empty cur pre = cur := by
    funext x
    rw [env, Table.get?_empty]
  rw [ofFormals, Table.ofList, env_insertAll, hempty]

end Subst

theorem Expr.eval_subst_env {M : Interpretation} (e : Expr) (s : Subst) (cur pre : M.State) :
    (e.subst s).eval cur pre = e.eval (s.env cur pre) (s.env pre pre) := by
  have henv : ∀ t u : M.State, Replacement.env { current := s } false t u = s.env t u := by
    intro t u
    funext x
    rw [Replacement.env, Subst.env, Replacement.get?, if_neg (by decide)]
  rw [subst, e.eval_replace, Replacement.preEnv, if_neg (by simp), henv, henv]

end LayerCheck
