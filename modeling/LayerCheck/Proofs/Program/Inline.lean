import LayerCheck.Proofs.Flow.Paths
import LayerCheck.Proofs.Program.Exec

/-!
# Running procedures

A body is run from its first block on, block by block, and a call runs the body of the procedure
that it names in its place.  That body reads its formals, its locals and the names that it does not
declare, which have the values they have around the call; `old` is the state in which it was
entered.  An execution can be looked at at any point.  It may go on until it returns, or until it
comes to an assertion that does not hold.

* `Exec`: the executions from some commands of a body on.
* `Implementation.Run`: the executions of a body with given arguments.
* `exec_assumes`, `exec_asserts`, `exec_goto`, `exec_call`: how executions go on.
-/

namespace LayerCheck

open Interpretation Command

variable {M : Interpretation}

/-- How far an execution has come, and the state there. -/
inductive Outcome (M : Interpretation) where
  | reached (s : M.State)
  | returned (s : M.State)
  | failed (s : M.State)

namespace Outcome

def state : Outcome M → M.State
  | reached s => s
  | returned s => s
  | failed s => s

/-- The execution is still in the body. -/
def Inside : Outcome M → Prop
  | returned _ => False
  | _ => True

@[simp] theorem inside_reached (s : M.State) : (reached s).Inside := trivial

@[simp] theorem inside_failed (s : M.State) : (failed s).Inside := trivial

@[simp] theorem not_inside_returned (s : M.State) : ¬ (returned s).Inside := id

end Outcome

namespace Implementation

/-- The state in which the body starts. -/
def enter (i : Implementation) (s : M.State) (args vals : List M.Value) : M.State :=
  setAll (setAll s (i.inputs.map Variable.name) args)
    ((i.outputs ++ i.locals).map Variable.name) vals

/-- The state after a call in `s` whose body returned in `t`. -/
def leave (i : Implementation) (outs : List String) (s t : M.State) : M.State :=
  setAll (fun x => if x ∈ i.vars.map Variable.name then s x else t x) outs
    (i.outputs.map fun v => t v.name)

end Implementation

/-- From the state `s`, in the body of `i` that was entered in `pre`, the commands and then the
transfer lead to the outcome. -/
inductive Exec (procs : Table String Implementation) :
    Implementation → M.State → List Command → Transfer → M.State → Outcome M → Prop
  | here {i : Implementation} {pre s : M.State} {cs : List Command} {tr : Transfer} :
    Exec procs i pre cs tr s (.reached s)
  | ret {i : Implementation} {pre s : M.State} : Exec procs i pre [] .ret s (.returned s)
  | jump {i : Implementation} {pre s : M.State} {ts : List String} {l : String} {b : Block}
    {o : Outcome M} (hl : l ∈ ts) (hb : i.block? l = some b)
    (h : Exec procs i pre b.commands b.transfer s o) : Exec procs i pre [] (.goto ts) s o
  | step {i : Implementation} {pre s t : M.State} {c : Command} {cs : List Command} {tr : Transfer}
    {o : Outcome M} (hc : ∀ k, c ≠ .call k) (hs : c.Step ⟨pre, []⟩ s t)
    (h : Exec procs i pre cs tr t o) : Exec procs i pre (c :: cs) tr s o
  | fail {i : Implementation} {pre s : M.State} {e : Expr} {m? : Option String} {cs : List Command}
    {tr : Transfer} (he : ¬ M.Holds (e.eval s pre)) :
    Exec procs i pre (.assert e m? :: cs) tr s (.failed s)
  | inside {i k : Implementation} {pre s : M.State} {c : Call} {cs : List Command} {tr : Transfer}
    {vals : List M.Value} {b : Block} {o : Outcome M} (hk : procs.get? c.callee = some k)
    (hv : M.Fits (k.outputs ++ k.locals) vals) (hb : k.blocks.head? = some b)
    (h : Exec procs k (k.enter s (c.ins.map (·.eval s pre)) vals) b.commands b.transfer
      (k.enter s (c.ins.map (·.eval s pre)) vals) o) (ho : o.Inside) :
    Exec procs i pre (.call c :: cs) tr s o
  | call {i k : Implementation} {pre s t : M.State} {c : Call} {cs : List Command} {tr : Transfer}
    {vals : List M.Value} {b : Block} {o : Outcome M} (hk : procs.get? c.callee = some k)
    (hv : M.Fits (k.outputs ++ k.locals) vals) (hb : k.blocks.head? = some b)
    (h : Exec procs k (k.enter s (c.ins.map (·.eval s pre)) vals) b.commands b.transfer
      (k.enter s (c.ins.map (·.eval s pre)) vals) (.returned t))
    (hr : Exec procs i pre cs tr (k.leave c.outs s t) o) : Exec procs i pre (.call c :: cs) tr s o

/-- The body, run with the arguments, leads to the outcome. -/
def Implementation.Run (procs : Table String Implementation) (i : Implementation) (s : M.State)
    (args : List M.Value) (o : Outcome M) : Prop :=
  ∃ vals b, M.Fits (i.outputs ++ i.locals) vals ∧ i.blocks.head? = some b ∧
    Exec procs i (i.enter s args vals) b.commands b.transfer (i.enter s args vals) o

variable {procs : Table String Implementation} {i : Implementation} {pre s : M.State}
  {cs : List Command} {tr : Transfer} {o : Outcome M}

/-! ## Transfers -/

theorem exec_ret : Exec procs i pre [] .ret s o ↔ o = .reached s ∨ o = .returned s := by
  constructor
  · intro h
    cases h with
    | here => exact .inl rfl
    | ret => exact .inr rfl
  · rintro (rfl | rfl)
    · exact .here
    · exact .ret

theorem exec_goto {ts : List String} : Exec procs i pre [] (.goto ts) s o ↔
    o = .reached s ∨ ∃ l ∈ ts, ∃ b, i.block? l = some b ∧
      Exec procs i pre b.commands b.transfer s o := by
  constructor
  · intro h
    cases h with
    | here => exact .inl rfl
    | jump hl hb h => exact .inr ⟨_, hl, _, hb, h⟩
  · intro h
    rcases h with rfl | ⟨l, hl, b, hb, h⟩
    · exact .here
    · exact .jump hl hb h

/-- A jump to blocks of the body goes on in one of them. -/
theorem exec_goto_blocks (hn : i.labels.Nodup) {bs : List Block} (hbs : bs ⊆ i.blocks) :
    Exec procs i pre [] (.goto (bs.map Block.label)) s o ↔
      o = .reached s ∨ ∃ b ∈ bs, Exec procs i pre b.commands b.transfer s o := by
  rw [exec_goto]
  refine or_congr_right ?_
  constructor
  · intro hx
    obtain ⟨l, hl, b, hb, h⟩ := hx
    obtain ⟨c, hc, rfl⟩ := List.mem_map.mp hl
    rw [(Implementation.block?_eq_some_iff hn).mpr ⟨hbs hc, rfl⟩] at hb
    cases hb
    exact ⟨b, hc, h⟩
  · intro hx
    obtain ⟨b, hb, h⟩ := hx
    exact ⟨_, List.mem_map_of_mem hb, b,
      (Implementation.block?_eq_some_iff hn).mpr ⟨hbs hb, rfl⟩, h⟩

/-! ## Assumptions and assertions -/

theorem exec_assume {e : Expr} : Exec procs i pre (.assume e :: cs) tr s o ↔
    o = .reached s ∨ M.Holds (e.eval s pre) ∧ Exec procs i pre cs tr s o := by
  constructor
  · intro h
    cases h with
    | here => exact .inl rfl
    | step _ hs h =>
      obtain ⟨he, rfl⟩ := hs
      exact .inr ⟨he, h⟩
  · intro h
    rcases h with rfl | ⟨he, h⟩
    · exact .here
    · exact .step (fun _ => Command.noConfusion) ⟨he, rfl⟩ h

theorem exec_assert {e : Expr} {m? : Option String} :
    Exec procs i pre (.assert e m? :: cs) tr s o ↔
      o = .reached s ∨ (¬ M.Holds (e.eval s pre) ∧ o = .failed s) ∨
        M.Holds (e.eval s pre) ∧ Exec procs i pre cs tr s o := by
  constructor
  · intro h
    cases h with
    | here => exact .inl rfl
    | step _ hs h =>
      obtain ⟨he, rfl⟩ := hs
      exact .inr (.inr ⟨he, h⟩)
    | fail he => exact .inr (.inl ⟨he, rfl⟩)
  · intro h
    rcases h with rfl | ⟨he, rfl⟩ | ⟨he, h⟩
    · exact .here
    · exact .fail he
    · exact .step (fun _ => Command.noConfusion) ⟨he, rfl⟩ h

/-- Assumptions do nothing but end executions. -/
theorem exec_assumes {es : List Expr} : Exec procs i pre (es.map .assume ++ cs) tr s o ↔
    o = .reached s ∨ (∀ e ∈ es, M.Holds (e.eval s pre)) ∧ Exec procs i pre cs tr s o := by
  induction es with
  | nil =>
    constructor
    · exact fun h => .inr ⟨fun _ he => absurd he List.not_mem_nil, h⟩
    · intro h
      rcases h with rfl | ⟨-, h⟩
      · exact .here
      · exact h
  | cons e es ih =>
    rw [List.map_cons, List.cons_append, exec_assume, ih, List.forall_mem_cons]
    tauto

/-- **Assertions fail exactly if one of them does not hold**, whichever comes first. -/
theorem exec_asserts {es : List Expr} {m? : Option String} :
    Exec procs i pre (es.map (.assert · m?) ++ cs) tr s o ↔
      o = .reached s ∨ ((∃ e ∈ es, ¬ M.Holds (e.eval s pre)) ∧ o = .failed s) ∨
        (∀ e ∈ es, M.Holds (e.eval s pre)) ∧ Exec procs i pre cs tr s o := by
  induction es with
  | nil =>
    constructor
    · exact fun h => .inr (.inr ⟨fun _ he => absurd he List.not_mem_nil, h⟩)
    · intro h
      rcases h with rfl | ⟨⟨e, he, -⟩, -⟩ | ⟨-, h⟩
      · exact .here
      · exact absurd he List.not_mem_nil
      · exact h
  | cons e es ih =>
    rw [List.map_cons, List.cons_append, exec_assert, ih, List.forall_mem_cons,
      List.exists_mem_cons_iff]
    by_cases he : M.Holds (e.eval s pre)
    · simp only [he, not_true_eq_false, false_and, false_or, true_and, or_self_left]
    · simp only [he, not_false_eq_true, true_and, true_or, false_and, or_false]

theorem exec_stop (hM : M.Standard) :
    Exec procs i pre (.stop :: cs) tr s o ↔ o = .reached s := by
  rw [stop, exec_assume, or_iff_left]
  exact fun h => hM.consistent h.1

/-! ## Calls -/

theorem exec_call {c : Call} : Exec procs i pre (.call c :: cs) tr s o ↔
    o = .reached s ∨ ∃ k, procs.get? c.callee = some k ∧
      ((k.Run procs s (c.ins.map (·.eval s pre)) o ∧ o.Inside) ∨
        ∃ t, k.Run procs s (c.ins.map (·.eval s pre)) (.returned t) ∧
          Exec procs i pre cs tr (k.leave c.outs s t) o) := by
  constructor
  · intro h
    cases h with
    | here => exact .inl rfl
    | step hc _ _ => exact absurd rfl (hc c)
    | inside hk hv hb h ho => exact .inr ⟨_, hk, .inl ⟨⟨_, _, hv, hb, h⟩, ho⟩⟩
    | call hk hv hb h hr => exact .inr ⟨_, hk, .inr ⟨_, ⟨_, _, hv, hb, h⟩, hr⟩⟩
  · intro h
    rcases h with rfl | ⟨k, hk, ⟨⟨vals, b, hv, hb, h⟩, ho⟩ | ⟨t, ⟨vals, b, hv, hb, h⟩, hr⟩⟩
    · exact .here
    · exact .inside hk hv hb h ho
    · exact .call hk hv hb h hr

end LayerCheck
