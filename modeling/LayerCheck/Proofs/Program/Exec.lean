import LayerCheck.Program.Command
import LayerCheck.Proofs.Expr.Eval

/-!
# Running commands

A command takes one state to the next.  Assumptions and assertions that do not hold have no next
state, a `havoc` may give its variables any values, and a call may change the globals and its
outputs in any way.  Yields and parallel calls are not run: they have been taken out before.

* `Command.Runs`: a list of commands takes one state to another.
* `Command.Passes`: all assertions that a list of commands reaches hold.
* `Command.Runs.frame`: what is not written stays.
-/

namespace LayerCheck

open Interpretation

variable {M : Interpretation}

/-- What commands are run in: the earlier state and the variables that calls may change. -/
structure Surroundings (M : Interpretation) where
  pre : M.State
  globals : List String

namespace Command

/-- The variables that a command gives a value, apart from the globals that a call changes. -/
def writes : Command → List String
  | .assign targets _ => targets
  | .havoc vars => vars
  | .call c => c.outs
  | .par p => p.outs
  | _ => []

def Step (σ : Surroundings M) (s t : M.State) : Command → Prop
  | .assign targets values => t = setAll s targets (values.map (·.eval s σ.pre))
  | .havoc vars => ∀ x ∉ vars, t x = s x
  | .assume e => M.Holds (e.eval s σ.pre) ∧ t = s
  | .assert e _ => M.Holds (e.eval s σ.pre) ∧ t = s
  | .call c => ∀ x ∉ σ.globals, x ∉ c.outs → t x = s x
  | .yield _ => False
  | .par _ => False

def Runs (σ : Surroundings M) : List Command → M.State → M.State → Prop
  | [], s, t => t = s
  | c :: cs, s, t => ∃ m, c.Step σ s m ∧ Runs σ cs m t

/-- Whenever the commands get to an assertion, it holds. -/
def Passes (σ : Surroundings M) : List Command → M.State → Prop
  | [], _ => True
  | c :: cs, s => (∀ e m?, c = .assert e m? → M.Holds (e.eval s σ.pre)) ∧
      ∀ t, c.Step σ s t → Passes σ cs t

variable {σ : Surroundings M} {s t : M.State} {cs ds : List Command}

/-! ## Lists of commands -/

@[simp] theorem runs_nil : Runs σ [] s t ↔ t = s := Iff.rfl

theorem runs_cons {c : Command} : Runs σ (c :: cs) s t ↔ ∃ m, c.Step σ s m ∧ Runs σ cs m t :=
  Iff.rfl

theorem runs_append : Runs σ (cs ++ ds) s t ↔ ∃ m, Runs σ cs s m ∧ Runs σ ds m t := by
  induction cs generalizing s with
  | nil =>
    constructor
    · exact fun h => ⟨s, rfl, h⟩
    · intro hx
      obtain ⟨m, rfl, h⟩ := hx
      exact h
  | cons c cs ih =>
    simp only [List.cons_append, runs_cons, ih]
    constructor
    · intro hx
      obtain ⟨m, hc, n, hcs, hds⟩ := hx
      exact ⟨n, ⟨m, hc, hcs⟩, hds⟩
    · intro hx
      obtain ⟨n, ⟨m, hc, hcs⟩, hds⟩ := hx
      exact ⟨m, hc, n, hcs, hds⟩

theorem runs_singleton {c : Command} : Runs σ [c] s t ↔ c.Step σ s t := by
  simp [runs_cons]

theorem passes_cons {c : Command} : Passes σ (c :: cs) s ↔
    (∀ e m?, c = .assert e m? → M.Holds (e.eval s σ.pre)) ∧ ∀ t, c.Step σ s t → Passes σ cs t :=
  Iff.rfl

theorem passes_append :
    Passes σ (cs ++ ds) s ↔ Passes σ cs s ∧ ∀ t, Runs σ cs s t → Passes σ ds t := by
  induction cs generalizing s with
  | nil => simp [Passes]
  | cons c cs ih =>
    simp only [List.cons_append, passes_cons, ih, runs_cons]
    constructor
    · intro hx
      obtain ⟨hc, h⟩ := hx
      refine ⟨⟨hc, fun t ht => (h t ht).1⟩, ?_⟩
      intro t hx
      obtain ⟨m, hm, ht⟩ := hx
      exact (h m hm).2 t ht
    · intro hx
      obtain ⟨⟨hc, h⟩, hd⟩ := hx
      exact ⟨hc, fun t ht => ⟨h t ht, fun u hu => hd u ⟨t, ht, hu⟩⟩⟩

/-- An assertion that is passed holds, and the rest is passed as well. -/
theorem passes_assert_cons {e : Expr} {m? : Option String} :
    Passes σ (.assert e m? :: cs) s ↔ M.Holds (e.eval s σ.pre) ∧ Passes σ cs s := by
  rw [passes_cons]
  constructor
  · intro hx
    obtain ⟨he, h⟩ := hx
    exact ⟨he e m? rfl, h s ⟨he e m? rfl, rfl⟩⟩
  · intro hx
    obtain ⟨he, h⟩ := hx
    refine ⟨?_, ?_⟩
    · intro e' m' heq
      cases heq
      exact he
    · intro t hx
      obtain ⟨-, rfl⟩ := hx
      exact h

theorem passes_asserts {es : List Expr} {m? : Option String} :
    Passes σ (es.map (.assert · m?) ++ cs) s ↔
      (∀ e ∈ es, M.Holds (e.eval s σ.pre)) ∧ Passes σ cs s := by
  induction es with
  | nil => simp
  | cons e es ih =>
    rw [List.map_cons, List.cons_append, passes_assert_cons, ih, List.forall_mem_cons, and_assoc]

/-- Assumptions that hold are passed, and change nothing. -/
theorem runs_assumes {es : List Expr} :
    Runs σ (es.map .assume) s t ↔ (∀ e ∈ es, M.Holds (e.eval s σ.pre)) ∧ t = s := by
  induction es generalizing s with
  | nil => simp
  | cons e es ih =>
    rw [List.map_cons, runs_cons, List.forall_mem_cons]
    constructor
    · rintro ⟨m, ⟨he, rfl⟩, hr⟩
      exact ⟨⟨he, (ih.mp hr).1⟩, (ih.mp hr).2⟩
    · rintro ⟨⟨he, hes⟩, rfl⟩
      exact ⟨t, ⟨he, rfl⟩, ih.mpr ⟨hes, rfl⟩⟩

/-! ## What stays -/

theorem Step.frame {c : Command} (h : c.Step σ s t) {x : String} (hx : x ∉ c.writes)
    (hg : x ∉ σ.globals) : t x = s x := by
  cases c with
  | assign targets values => exact h ▸ setAll_of_notMem hx
  | havoc vars => exact h x hx
  | assume e => rw [h.2]
  | assert e m? => rw [h.2]
  | call c => exact h x hg hx
  | yield id => exact h.elim
  | par p => exact h.elim

/-- **What no command writes stays as it is.** -/
theorem Runs.frame (h : Runs σ cs s t) {x : String} (hx : ∀ c ∈ cs, x ∉ c.writes)
    (hg : x ∉ σ.globals) : t x = s x := by
  induction cs generalizing s with
  | nil => rw [runs_nil.mp h]
  | cons c cs ih =>
    obtain ⟨m, hc, hcs⟩ := h
    rw [ih hcs fun d hd => hx d (List.mem_cons_of_mem _ hd),
      hc.frame (hx c List.mem_cons_self) hg]

/-- Assumptions and assertions change nothing. -/
theorem Runs.eq_of_isPredicate (h : Runs σ cs s t) (hp : ∀ c ∈ cs, c.isPredicate = true) :
    t = s := by
  induction cs generalizing s with
  | nil => exact h
  | cons c cs ih =>
    obtain ⟨m, hc, hcs⟩ := h
    have hm : m = s := by
      have hc' := hp c List.mem_cons_self
      cases c with
      | assume e => exact hc.2
      | assert e m? => exact hc.2
      | _ => simp [isPredicate, predicate?] at hc'
    rw [ih hcs fun d hd => hp d (List.mem_cons_of_mem _ hd), hm]

/-! ## Assignments -/

/-- Giving variables the values that they have changes nothing. -/
theorem setAll_self (s : M.State) (xs : List String) : setAll s xs (xs.map s) = s := by
  induction xs with
  | nil => rfl
  | cons x xs ih => rw [List.map_cons, setAll, Function.update_eq_self, ih]

/-- Copies hold the values of what they are copies of. -/
theorem setAll_copies {xs : List String} {f : String → String} (hf : Function.Injective f)
    {x : String} (hx : x ∈ xs) : setAll s (xs.map f) (xs.map t) (f x) = t x := by
  rw [setAll_map (t := t) (List.length_map t).symm (fun _ _ _ _ h => hf h) hx, setAll_self]

/-- What is assigned to the names of the elements of a list is found there, if elements with one
name are assigned the same. -/
theorem setAll_map_eq {α : Type} {l : List α} {name : α → String} {value : α → M.Value}
    (hv : ∀ a ∈ l, ∀ b ∈ l, name a = name b → value a = value b) {a : α} (ha : a ∈ l) :
    setAll s (l.map name) (l.map value) (name a) = value a := by
  induction l generalizing a s with
  | nil => exact absurd ha List.not_mem_nil
  | cons b l ih =>
    have ih : ∀ {c : α} {s : M.State}, c ∈ l →
        setAll s (l.map name) (l.map value) (name c) = value c := fun {c s} hc =>
      ih (fun a ha b hb => hv a (List.mem_cons_of_mem _ ha) b (List.mem_cons_of_mem _ hb)) hc
    rw [List.map_cons, List.map_cons, setAll]
    by_cases hm : name a ∈ l.map name
    · obtain ⟨c, hc, hca⟩ := List.mem_map.mp hm
      rw [← hca, ih hc]
      exact hv c (List.mem_cons_of_mem _ hc) a ha hca
    · rw [setAll_of_notMem hm]
      rcases List.mem_cons.mp ha with rfl | ha
      · exact Function.update_self ..
      · exact absurd (List.mem_map_of_mem ha) hm

theorem runs_assignAll {targets : List String} {values : List Expr} :
    Runs σ (assignAll targets values) s t ↔
      t = setAll s targets (values.map (·.eval s σ.pre)) := by
  cases targets with
  | nil => simp [assignAll, setAll]
  | cons x xs => simp [assignAll, runs_singleton, Step]

theorem runs_havocAll {vars : List String} :
    Runs σ (havocAll vars) s t ↔ ∀ x ∉ vars, t x = s x := by
  cases vars with
  | nil => simp [havocAll, funext_iff]
  | cons x xs => simp [havocAll, runs_singleton, Step]

end Command

end LayerCheck
