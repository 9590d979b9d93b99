import LayerCheck.Proofs.Expr.Subst
import LayerCheck.Proofs.Interference.Coverage
import LayerCheck.Proofs.Permission.Carried
import LayerCheck.Proofs.Program.Inline

/-!
# What a call of the dispatcher checks

The dispatcher runs the checker of any subject.  The checker assumes what is relied on at a yield,
with the globals of the snapshot, and that the permissions that it gets are disjoint from those of
the subject; then it asserts what is relied on with the globals as they are now.  So an execution
fails exactly if interference breaks some yield of some subject, and one that returns has done
nothing.

* `Subject.Breaks`: interference breaks what is relied on at a yield.
* `Checker.run_iff`, `Dispatcher.runs_iff`: all executions of a checker and of the dispatcher.
* `Dispatcher.fails_iff_breaks`: what a call of the dispatcher means.
-/

namespace LayerCheck

open Interpretation Command

variable {M : Interpretation}

namespace Checker

/-- The globals have the given values, all else is as it is. -/
def withGlobals (globals : List Variable) (values s : M.State) : M.State := fun x =>
  if x ∈ globals.map Variable.name then values x else s x

/-- The values that are passed to the checkers: permissions by domain, then the snapshot. -/
def args (p : Permissions) (globals : List Variable) (permission snapshot : String → M.Value) :
    List M.Value :=
  p.domains.values.map (fun d => permission d.name) ++ globals.map fun g => snapshot g.name

end Checker

namespace Subject

/-- The state in which the variables of the subject have the values. -/
def bind (t : Subject) (s : M.State) (vals : List M.Value) : M.State :=
  setAll s (t.vars.map Variable.name) vals

/-- The predicates of a yield held in the state `old`, the permissions are disjoint from what the
variables of the subject carry, and one of the predicates that are asserted does not hold now. -/
structure Breaks (p : Permissions) (permission : String → M.Value) (old now : M.State)
    (t : Subject) (predicates : List Command) : Prop where
  held : ∀ c ∈ predicates, ∀ e ∈ c.predicate?, M.Holds (e.eval old old)
  disjoint : ∀ d ∈ p.domains.values, d.carried t.vars now ≠ [] →
    M.Holds (M.app (d.name ++ "_disjoint") (permission d.name :: d.carried t.vars now))
  broken : ∃ e m?, .assert e m? ∈ predicates ∧ ¬ M.Holds (e.eval now old)

end Subject

namespace Checker

variable {p : Permissions} {globals : List Variable} {permission snapshot : String → M.Value}
  {s pre : M.State} {procs : Table String Implementation} {i : Implementation} {o : Outcome M}

/-! ## The formals -/

theorem oldGlobal_name (g : Variable) : (oldGlobal g).name = "__old_" ++ g.name := rfl

theorem get?_oldGlobals (globals : List Variable) (x : String) :
    (oldGlobals globals).get? x =
      if x ∈ globals.map Variable.name then some (.var ("__old_" ++ x)) else none :=
  Subst.get?_renaming ("__old_" ++ ·) globals x

/-- The formals have the values of the permissions and of the snapshot. -/
structure Receives (p : Permissions) (globals : List Variable)
    (permission snapshot : String → M.Value) (s : M.State) : Prop where
  permission : ∀ d ∈ p.domains.values, s d.formal.name = permission d.name
  snapshot : ∀ g ∈ globals, s (oldGlobal g).name = snapshot g.name

theorem formal_name_ne_oldGlobal_name (d : Domain) (g : Variable) :
    d.formal.name ≠ (oldGlobal g).name := by
  intro h
  have h2 := congrArg (fun n => n.toList[2]?) h
  simp [Domain.formal, oldGlobal_name] at h2

theorem map_name_inputs (p : Permissions) (globals : List Variable) :
    (inputs p globals).map Variable.name =
      (p.domains.values.map Domain.name).map (fun n => "__linear_" ++ n ++ "_in") ++
        (globals.map Variable.name).map ("__old_" ++ ·) := by
  rw [inputs, List.map_append, List.map_map, List.map_map, List.map_map, List.map_map]
  rfl

theorem setAll_append {xs ys : List String} {as bs : List M.Value} (hl : xs.length = as.length) :
    setAll s (xs ++ ys) (as ++ bs) = setAll (setAll s xs as) ys bs := by
  induction xs generalizing s as with
  | nil =>
    cases as with
    | nil => rfl
    | cons a as => cases hl
  | cons x xs ih =>
    cases as with
    | nil => cases hl
    | cons a as => exact ih (by simpa using hl)

theorem receives_args : Receives p globals permission snapshot
    (setAll s ((inputs p globals).map Variable.name) (args p globals permission snapshot)) := by
  have hold : Function.Injective ("__old_" ++ · : String → String) :=
    fun _ _ => (String.append_right_inj _).mp
  have hin : Function.Injective (fun n : String => "__linear_" ++ n ++ "_in") :=
    fun _ _ h => (String.append_right_inj _).mp ((String.append_left_inj _).mp h)
  have ha : args p globals permission snapshot =
      (p.domains.values.map Domain.name).map permission ++
        (globals.map Variable.name).map snapshot := by
    rw [args, List.map_map, List.map_map]
    rfl
  rw [map_name_inputs, ha, setAll_append (by simp)]
  refine ⟨fun d hd => ?_, fun g hg => setAll_copies hold (List.mem_map_of_mem hg)⟩
  rw [setAll_of_notMem]
  · exact setAll_copies hin (List.mem_map_of_mem hd)
  · intro hm
    obtain ⟨x, hx, hn⟩ := List.mem_map.mp hm
    obtain ⟨g, -, rfl⟩ := List.mem_map.mp hx
    exact formal_name_ne_oldGlobal_name d g hn.symm

/-- Other variables with values of their own do not matter to what has been received. -/
theorem Receives.setAll_of_notMem (h : Receives p globals permission snapshot s) {xs : List String}
    (hx : ∀ x ∈ xs, x ∉ (inputs p globals).map Variable.name) (vs : List M.Value) :
    Receives p globals permission snapshot (setAll s xs vs) := by
  have hmem : ∀ v ∈ inputs p globals, setAll s xs vs v.name = s v.name :=
    fun v hv => Interpretation.setAll_of_notMem fun hm => hx _ hm (List.mem_map_of_mem hv)
  constructor
  · intro d hd
    rw [hmem _ (List.mem_append_left _ (List.mem_map_of_mem hd)), h.permission d hd]
  · intro g hg
    rw [hmem _ (List.mem_append_right _ (List.mem_map_of_mem hg)), h.snapshot g hg]

/-! ## Predicates before and after the step -/

/-- Reading the old formals for the globals is reading the globals of the snapshot. -/
theorem Receives.env_eq_withGlobals (h : Receives p globals permission snapshot s) {r : Replacement}
    {inOld : Bool} (hr : ∀ x, r.get? inOld x = (oldGlobals globals).get? x) :
    r.env inOld s pre = withGlobals globals snapshot s := by
  funext x
  rw [Replacement.env, hr, get?_oldGlobals, withGlobals]
  by_cases hx : x ∈ globals.map Variable.name
  · rw [if_pos hx, if_pos hx]
    obtain ⟨g, hg, rfl⟩ := List.mem_map.mp hx
    exact h.snapshot g hg
  · rw [if_neg hx, if_neg hx]

/-- What is assumed: the predicate with the globals of the snapshot, also below `old`. -/
theorem Receives.eval_assumed (h : Receives p globals permission snapshot s) (e : Expr) :
    (e.substOld (oldGlobals globals) (oldGlobals globals)).eval s pre =
      e.eval (withGlobals globals snapshot s) (withGlobals globals snapshot s) := by
  have hold : ∀ x, Replacement.get?
      { current := oldGlobals globals, past? := some (oldGlobals globals) } true x =
        (oldGlobals globals).get? x := fun x => Option.or_self
  rw [Expr.eval_substOld, h.env_eq_withGlobals fun _ => rfl, h.env_eq_withGlobals hold]

/-- What is asserted: the predicate with the globals of now, and with the snapshot below `old`. -/
theorem Receives.eval_asserted (h : Receives p globals permission snapshot s) (e : Expr) :
    (e.substOld ∅ (oldGlobals globals)).eval s pre = e.eval s (withGlobals globals snapshot s) := by
  have hnow :
      Replacement.env { current := ∅, past? := some (oldGlobals globals) } false s pre = s :=
    rfl
  have hold : ∀ x, Replacement.get? { current := ∅, past? := some (oldGlobals globals) } true x =
      (oldGlobals globals).get? x := fun x => Option.or_none
  rw [Expr.eval_substOld, hnow, h.env_eq_withGlobals hold]

/-! ## The sink of a yield -/

theorem mem_filterMap_asserted?_iff {cs : List Command} {e : Expr} :
    e ∈ cs.filterMap asserted? ↔ ∃ m?, .assert e m? ∈ cs := by
  rw [List.mem_filterMap]
  constructor
  · intro hx
    obtain ⟨c, hc, he⟩ := hx
    cases c with
    | assert e' m? =>
      cases he
      exact ⟨m?, hc⟩
    | _ => cases he
  · intro hx
    obtain ⟨m?, hm⟩ := hx
    exact ⟨_, hm, rfl⟩

/-- The sink of a yield: what held before, disjointness, what is to hold now, and the end. -/
theorem sink_eq (p : Permissions) (globals vars : List Variable) (predicates : List Command) :
    commands p globals vars predicates ++ [.stop] =
      ((predicates.filterMap predicate?).map fun e =>
        e.substOld (oldGlobals globals) (oldGlobals globals)).map .assume ++
      ((p.domains.values.filterMap fun d => d.disjointWith? d.formal vars).map .assume ++
      (((predicates.filterMap asserted?).map fun e =>
        e.substOld ∅ (oldGlobals globals)).map (.assert · (some message)) ++ [.stop])) := by
  rw [commands_eq, List.map_map, List.map_map, List.append_assoc, List.append_assoc]
  rfl

theorem Receives.forall_held_iff (h : Receives p globals permission snapshot s)
    {predicates : List Command} :
    (∀ e ∈ (predicates.filterMap predicate?).map fun e =>
        e.substOld (oldGlobals globals) (oldGlobals globals), M.Holds (e.eval s pre)) ↔
      ∀ c ∈ predicates, ∀ e ∈ c.predicate?,
        M.Holds (e.eval (withGlobals globals snapshot s) (withGlobals globals snapshot s)) := by
  simp only [List.forall_mem_map, h.eval_assumed, List.forall_mem_filterMap, Option.mem_def]

theorem Receives.forall_disjoint_iff (h : Receives p globals permission snapshot s)
    {vars : List Variable} :
    (∀ e ∈ p.domains.values.filterMap fun d => d.disjointWith? d.formal vars,
        M.Holds (e.eval s pre)) ↔
      ∀ d ∈ p.domains.values, d.carried vars s ≠ [] →
        M.Holds (M.app (d.name ++ "_disjoint") (permission d.name :: d.carried vars s)) := by
  rw [List.forall_mem_filterMap]
  refine forall₂_congr fun d hd => ?_
  rw [← h.permission d hd]
  exact Domain.forall_disjointWith?_iff

theorem Receives.exists_broken_iff (h : Receives p globals permission snapshot s)
    {predicates : List Command} :
    (∃ e ∈ (predicates.filterMap asserted?).map fun e => e.substOld ∅ (oldGlobals globals),
        ¬ M.Holds (e.eval s pre)) ↔
      ∃ e m?, .assert e m? ∈ predicates ∧
        ¬ M.Holds (e.eval s (withGlobals globals snapshot s)) := by
  constructor
  · intro hx
    obtain ⟨d, hd, hb⟩ := hx
    obtain ⟨e, he, rfl⟩ := List.mem_map.mp hd
    obtain ⟨m?, hm⟩ := mem_filterMap_asserted?_iff.mp he
    exact ⟨e, m?, hm, by rwa [← h.eval_asserted]⟩
  · intro hx
    obtain ⟨e, m?, hm, hb⟩ := hx
    refine ⟨_, List.mem_map_of_mem (mem_filterMap_asserted?_iff.mpr ⟨m?, hm⟩), ?_⟩
    rwa [h.eval_asserted]

/-- **The sink of a yield fails exactly if interference breaks the yield.** -/
theorem exec_commands (hM : M.Standard) (t : Subject)
    (h : Receives p globals permission snapshot s) {predicates : List Command} :
    Exec procs i pre (commands p globals t.vars predicates ++ [.stop]) .ret s o ↔
      o = .reached s ∨
        t.Breaks p permission (withGlobals globals snapshot s) s predicates ∧ o = .failed s := by
  rw [sink_eq, exec_assumes, h.forall_held_iff, exec_assumes, h.forall_disjoint_iff, exec_asserts,
    h.exists_broken_iff, exec_stop hM]
  constructor
  · intro hx
    rcases hx with ho | ⟨hh, ho | ⟨hd, ho | ⟨hb, ho⟩ | ⟨-, ho⟩⟩⟩
    · exact .inl ho
    · exact .inl ho
    · exact .inl ho
    · exact .inr ⟨⟨hh, hd, hb⟩, ho⟩
    · exact .inl ho
  · intro hx
    rcases hx with ho | ⟨hb, ho⟩
    · exact .inl ho
    · exact .inr ⟨hb.held, .inr ⟨hb.disjoint, .inr (.inl ⟨hb.broken, ho⟩)⟩⟩

/-! ## Running a checker -/

/-- The first block returns, or goes on in the sink of a yield that relies on something. -/
theorem exec_entry (t : Subject) {b : Block}
    (hb : b ∈ (ofSubject p globals t).implementation.blocks.head?) :
    Exec procs (ofSubject p globals t).implementation pre b.commands b.transfer s o ↔
      o = .reached s ∨ o = .returned s ∨ ∃ predicates ∈ t.yields, predicates ≠ [] ∧
        Exec procs (ofSubject p globals t).implementation pre
          (commands p globals t.vars predicates ++ [.stop]) .ret s o := by
  cases hb
  refine (exec_goto_blocks (nodup_labels p globals t) (List.subset_cons_self _ _)).trans ?_
  rw [List.exists_mem_cons_iff, exec_ret]
  constructor
  · intro hx
    rcases hx with ho | (ho | ho) | ⟨b, hb, hx⟩
    · exact .inl ho
    · exact .inl ho
    · exact .inr (.inl ho)
    · obtain ⟨⟨predicates, n⟩, ha, rfl⟩ := List.mem_map.mp hb
      obtain ⟨hm, hne⟩ := List.mem_filter.mp (List.fst_mem_of_mem_zipIdx ha)
      exact .inr (.inr ⟨predicates, hm, by simpa using hne, hx⟩)
  · intro hx
    rcases hx with ho | ho | ⟨predicates, hm, hne, hx⟩
    · exact .inl ho
    · exact .inr (.inl (.inr ho))
    · have hf : predicates ∈ t.yields.filter (!·.isEmpty) :=
        List.mem_filter.mpr ⟨hm, by simpa using hne⟩
      obtain ⟨n, hn⟩ := List.getElem?_of_mem hf
      have hz : (predicates, n) ∈ (t.yields.filter (!·.isEmpty)).zipIdx :=
        List.mem_zipIdx_iff_getElem?.mpr hn
      exact .inr (.inr ⟨_, List.mem_map_of_mem hz, hx⟩)

/-- **All executions of a checker**: it returns at once, or fails where interference breaks a
yield. -/
theorem run_iff (hM : M.Standard) {t : Subject} {as : List M.Value} {start : M.State}
    (ht : ∀ v ∈ t.vars, v.name ∉ (inputs p globals).map Variable.name)
    (hstart : start = setAll s ((inputs p globals).map Variable.name) as)
    (hs : Receives p globals permission snapshot start) :
    (ofSubject p globals t).implementation.Run procs s as o ↔ ∃ vals, M.Fits t.vars vals ∧
      (o = .reached (t.bind start vals) ∨ o = .returned (t.bind start vals) ∨
        ∃ predicates ∈ t.yields, predicates ≠ [] ∧
          t.Breaks p permission (withGlobals globals snapshot (t.bind start vals))
            (t.bind start vals) predicates ∧
          o = .failed (t.bind start vals)) := by
  subst hstart
  have hbind : ∀ vals, Receives p globals permission snapshot
      (t.bind (setAll s ((inputs p globals).map Variable.name) as) vals) :=
    hs.setAll_of_notMem (List.forall_mem_map.mpr ht)
  constructor
  · intro hx
    obtain ⟨vals, b, hv, hb, hx⟩ := hx
    refine ⟨vals, hv, ?_⟩
    rcases (exec_entry t hb).mp hx with ho | ho | ⟨predicates, hm, hne, hx⟩
    · exact .inl ho
    · exact .inr (.inl ho)
    · rcases (exec_commands hM t (hbind vals)).mp hx with ho | ⟨hbr, ho⟩
      · exact .inl ho
      · exact .inr (.inr ⟨predicates, hm, hne, hbr, ho⟩)
  · intro hx
    obtain ⟨vals, hv, hx⟩ := hx
    refine ⟨vals, _, hv, rfl, (exec_entry t rfl).mpr ?_⟩
    rcases hx with ho | ho | ⟨predicates, hm, hne, hbr, ho⟩
    · exact .inl ho
    · exact .inr (.inl ho)
    · exact .inr (.inr ⟨predicates, hm, hne,
        (exec_commands hM t (hbind vals)).mpr (.inr ⟨hbr, ho⟩)⟩)

end Checker

namespace Dispatcher

open Checker

variable {p : Permissions} {globals : List Variable} {permission snapshot : String → M.Value}
  {s : M.State} {o : Outcome M}

/-- The checkers of the subjects, added to a program. -/
def withCheckers (p : Permissions) (globals : List Variable) (subjects : List Subject)
    (program : Program) : Program :=
  program.addDeclarations (subjects.flatMap fun t => (ofSubject p globals t).declarations)

theorem implementations_withCheckers (subjects : List Subject) (program : Program) :
    (withCheckers p globals subjects program).implementations =
      program.implementations.insertAll
        (subjects.map fun t => (t.checkerName, (ofSubject p globals t).implementation)) := by
  induction subjects generalizing program with
  | nil => rfl
  | cons t ts ih =>
    have h := ih (program.addDeclarations (ofSubject p globals t).declarations)
    rw [withCheckers, List.flatMap_cons, Program.addDeclarations, List.foldl_append]
    exact h

theorem get?_withCheckers {subjects : List Subject}
    (hn : (subjects.map Subject.checkerName).Nodup) {t : Subject} (ht : t ∈ subjects)
    (program : Program) :
    (withCheckers p globals subjects program).implementations.get? t.checkerName =
      some (ofSubject p globals t).implementation := by
  have hkeys : ((subjects.map fun t =>
      (t.checkerName, (ofSubject p globals t).implementation)).map Prod.fst).Nodup := by
    rw [List.map_map]
    exact hn
  rw [implementations_withCheckers]
  exact Table.get?_insertAll_of_mem hkeys (List.mem_map_of_mem ht) _

/-- The executions of the dispatcher of the subjects, called with permissions and a snapshot. -/
def Runs (p : Permissions) (globals : List Variable) (permission snapshot : String → M.Value)
    (subjects : List Subject) (program : Program) (name : String) (s : M.State) (o : Outcome M) :
    Prop :=
  (implementation (procedure name (inputs p globals)) (subjects.map Subject.checkerName)).Run
    (withCheckers p globals subjects program).implementations s
    (args p globals permission snapshot) o

variable {subjects : List Subject} {program : Program} {name : String}

/-- The first block calls the checker of any subject, or returns if there is none. -/
theorem exec_entry {procs : Table String Implementation} {pre : M.State} (d : Procedure)
    (names : List String) {b : Block} (hb : b ∈ (implementation d names).blocks.head?) :
    Exec procs (implementation d names) pre b.commands b.transfer s o ↔
      o = .reached s ∨ (names = [] ∧ o = .returned s) ∨ ∃ n ∈ names,
        Exec procs (implementation d names) pre
          [.call { id := .generated, callee := n, ins := d.inputs.map Variable.expr }] .ret s
            o := by
  cases hb
  cases names with
  | nil => simpa using exec_ret
  | cons n names =>
    refine (exec_goto_blocks (nodup_labels d (n :: names)) (List.subset_cons_self _ _)).trans ?_
    have hne : (n :: names) ≠ [] := List.cons_ne_nil n names
    rw [iff_false_intro hne, false_and, false_or]
    generalize n :: names = ns
    constructor
    · intro hx
      rcases hx with ho | ⟨b, hb, hx⟩
      · exact .inl ho
      · obtain ⟨⟨m, k⟩, ha, rfl⟩ := List.mem_map.mp hb
        exact .inr ⟨m, List.fst_mem_of_mem_zipIdx ha, hx⟩
    · intro hx
      rcases hx with ho | ⟨m, hm, hx⟩
      · exact .inl ho
      · obtain ⟨k, hk⟩ := List.getElem?_of_mem hm
        have hz : (m, k) ∈ ns.zipIdx := List.mem_zipIdx_iff_getElem?.mpr hk
        exact .inr ⟨_, List.mem_map_of_mem hz, hx⟩

/-- Passing on the formals sets the formals of the checkers to what they are already. -/
theorem setAll_formals (vars : List Variable) (start : M.State) :
    setAll start (vars.map Variable.name)
      ((vars.map Variable.expr).map (·.eval start start)) = start := by
  have hv : (vars.map Variable.expr).map (·.eval start start) =
      (vars.map Variable.name).map start := by
    rw [List.map_map, List.map_map]
    rfl
  rw [hv, setAll_self]

/-- After a checker has returned, all is as it was before the call. -/
theorem leave_checker (t : Subject) (start : M.State) (vals : List M.Value) :
    (ofSubject p globals t).implementation.leave [] start (t.bind start vals) = start := by
  funext x
  show (if x ∈ _ then _ else _) = _
  split
  · rfl
  · rename_i hx
    refine setAll_of_notMem fun hm => hx ?_
    rw [Implementation.vars, List.map_append]
    exact List.mem_append_right _ hm

/-- A branch of the dispatcher runs the checker of its subject. -/
theorem exec_branch (hM : M.Standard) (hn : (subjects.map Subject.checkerName).Nodup)
    {i : Implementation} {start : M.State}
    (hstart : Receives p globals permission snapshot start) {t : Subject} (ht : t ∈ subjects)
    (hvars : ∀ v ∈ t.vars, v.name ∉ (inputs p globals).map Variable.name) :
    Exec (withCheckers p globals subjects program).implementations i start
        [.call { id := .generated, callee := t.checkerName,
                 ins := (inputs p globals).map Variable.expr }] .ret start o ↔
      o = .reached start ∨ ∃ vals, M.Fits t.vars vals ∧
        (o = .reached (t.bind start vals) ∨ o = .reached start ∨ o = .returned start ∨
          ∃ predicates ∈ t.yields, predicates ≠ [] ∧
            t.Breaks p permission (withGlobals globals snapshot (t.bind start vals))
            (t.bind start vals) predicates ∧
            o = .failed (t.bind start vals)) := by
  have hrun : ∀ o', (ofSubject p globals t).implementation.Run
      (withCheckers p globals subjects program).implementations start
      (((inputs p globals).map Variable.expr).map (·.eval start start)) o' ↔ _ := fun o' =>
    run_iff hM hvars (setAll_formals (inputs p globals) start).symm hstart
  rw [exec_call]
  refine or_congr_right ?_
  constructor
  · intro hx
    obtain ⟨k, hk, hx⟩ := hx
    rw [get?_withCheckers hn ht] at hk
    cases hk
    rcases hx with ⟨hx, ho⟩ | ⟨u, hx, hr⟩
    · obtain ⟨vals, hv, rfl | rfl | hb⟩ := (hrun o).mp hx
      · exact ⟨vals, hv, .inl rfl⟩
      · exact absurd ho (Outcome.not_inside_returned _)
      · exact ⟨vals, hv, .inr (.inr (.inr hb))⟩
    · obtain ⟨vals, hv, hu | hu | ⟨_, _, _, _, hu⟩⟩ := (hrun _).mp hx
      · cases hu
      · cases hu
        rw [leave_checker, exec_ret] at hr
        rcases hr with ho | ho
        · exact ⟨vals, hv, .inr (.inl ho)⟩
        · exact ⟨vals, hv, .inr (.inr (.inl ho))⟩
      · cases hu
  · intro hx
    obtain ⟨vals, hv, hx⟩ := hx
    refine ⟨_, get?_withCheckers hn ht program, ?_⟩
    rcases hx with rfl | ho | ho | ⟨predicates, hm, hne, hb, rfl⟩
    · exact .inl ⟨(hrun _).mpr ⟨vals, hv, .inl rfl⟩, trivial⟩
    · refine .inr ⟨_, (hrun _).mpr ⟨vals, hv, .inr (.inl rfl)⟩, ?_⟩
      rw [leave_checker]
      exact exec_ret.mpr (.inl ho)
    · refine .inr ⟨_, (hrun _).mpr ⟨vals, hv, .inr (.inl rfl)⟩, ?_⟩
      rw [leave_checker]
      exact exec_ret.mpr (.inr ho)
    · exact .inl ⟨(hrun _).mpr ⟨vals, hv, .inr (.inr ⟨predicates, hm, hne, hb, rfl⟩)⟩, trivial⟩

/-- **All executions of the dispatcher**: it returns and has changed nothing, or it fails where
interference breaks a yield of a subject. -/
theorem runs_iff (hM : M.Standard) (hn : (subjects.map Subject.checkerName).Nodup)
    (hvars : ∀ t ∈ subjects, ∀ v ∈ t.vars, v.name ∉ (inputs p globals).map Variable.name)
    {start : M.State} (hstart : start = setAll s ((inputs p globals).map Variable.name)
      (args p globals permission snapshot)) :
    Runs p globals permission snapshot subjects program name s o ↔
      o = .reached start ∨ (subjects = [] ∧ o = .returned start) ∨
        ∃ t ∈ subjects, ∃ vals, M.Fits t.vars vals ∧
          (o = .reached (t.bind start vals) ∨ o = .returned start ∨
            ∃ predicates ∈ t.yields, predicates ≠ [] ∧
              t.Breaks p permission (withGlobals globals snapshot (t.bind start vals))
                (t.bind start vals) predicates ∧
              o = .failed (t.bind start vals)) := by
  subst hstart
  have hreceives : Receives p globals permission snapshot
      (setAll s ((inputs p globals).map Variable.name) (args p globals permission snapshot)) :=
    receives_args
  constructor
  · intro hx
    obtain ⟨vals, b, hv, hb, hx⟩ := hx
    cases hv
    rcases (exec_entry _ _ hb).mp hx with ho | ⟨he, ho⟩ | ⟨n, hm, hx⟩
    · exact .inl ho
    · exact .inr (.inl ⟨List.map_eq_nil_iff.mp he, ho⟩)
    · obtain ⟨t, ht, rfl⟩ := List.mem_map.mp hm
      rcases (exec_branch hM hn hreceives ht (hvars t ht)).mp hx with ho | ⟨vals, hv, ho | ho | hx⟩
      · exact .inl ho
      · exact .inr (.inr ⟨t, ht, vals, hv, .inl ho⟩)
      · exact .inl ho
      · exact .inr (.inr ⟨t, ht, vals, hv, .inr hx⟩)
  · intro hx
    refine ⟨[], _, .nil, rfl, (exec_entry _ _ rfl).mpr ?_⟩
    rcases hx with ho | ⟨he, ho⟩ | ⟨t, ht, vals, hv, hx⟩
    · exact .inl ho
    · exact .inr (.inl ⟨List.map_eq_nil_iff.mpr he, ho⟩)
    · refine .inr (.inr ⟨_, List.mem_map_of_mem ht,
        (exec_branch hM hn hreceives ht (hvars t ht)).mpr (.inr ⟨vals, hv, ?_⟩)⟩)
      rcases hx with ho | hx
      · exact .inl ho
      · exact .inr (.inr hx)

section Outcomes

variable (hM : M.Standard) (hn : (subjects.map Subject.checkerName).Nodup)
  (hvars : ∀ t ∈ subjects, ∀ v ∈ t.vars, v.name ∉ (inputs p globals).map Variable.name)
  {start : M.State} (hstart : start = setAll s ((inputs p globals).map Variable.name)
    (args p globals permission snapshot))

include hM hn hvars hstart in
/-- The executions that fail. -/
theorem exists_failed_iff :
    (∃ t, Runs p globals permission snapshot subjects program name s (.failed t)) ↔
      ∃ t ∈ subjects, ∃ predicates ∈ t.yields, predicates ≠ [] ∧ ∃ vals, M.Fits t.vars vals ∧
        t.Breaks p permission (withGlobals globals snapshot (t.bind start vals))
          (t.bind start vals) predicates := by
  simp only [runs_iff hM hn hvars hstart]
  constructor
  · intro hx
    obtain ⟨u, h | ⟨-, h⟩ | ⟨t, ht, vals, hv, h | h | ⟨ps, hm, hne, hb, -⟩⟩⟩ := hx
    · cases h
    · cases h
    · cases h
    · cases h
    · exact ⟨t, ht, ps, hm, hne, vals, hv, hb⟩
  · intro hx
    obtain ⟨t, ht, ps, hm, hne, vals, hv, hb⟩ := hx
    exact ⟨_, .inr (.inr ⟨t, ht, vals, hv, .inr (.inr ⟨ps, hm, hne, hb, rfl⟩)⟩)⟩

include hM hn hvars hstart in
/-- The executions that return. -/
theorem runs_returned_iff {u : M.State} :
    Runs p globals permission snapshot subjects program name s (.returned u) ↔
      u = start ∧ (subjects = [] ∨ ∃ t ∈ subjects, ∃ vals, M.Fits t.vars vals) := by
  rw [runs_iff hM hn hvars hstart]
  constructor
  · intro hx
    rcases hx with h | ⟨he, h⟩ | ⟨t, ht, vals, hv, h | h | ⟨_, _, _, _, h⟩⟩
    · cases h
    · cases h
      exact ⟨rfl, .inl he⟩
    · cases h
    · cases h
      exact ⟨rfl, .inr ⟨t, ht, vals, hv⟩⟩
    · cases h
  · intro hx
    obtain ⟨rfl, he | ⟨t, ht, vals, hv⟩⟩ := hx
    · exact .inr (.inl ⟨he, rfl⟩)
    · exact .inr (.inr ⟨t, ht, vals, hv, .inr (.inl rfl)⟩)

include hM hn hvars hstart in
/-- Nothing is changed but that a checker binds the variables of its subject. -/
theorem Runs.state_eq (h : Runs p globals permission snapshot subjects program name s o) :
    o.state = start ∨ ∃ t ∈ subjects, ∃ vals, o.state = t.bind start vals := by
  rcases (runs_iff hM hn hvars hstart).mp h with
    rfl | ⟨-, rfl⟩ | ⟨t, ht, vals, -, rfl | rfl | ⟨_, _, _, _, rfl⟩⟩
  · exact .inl rfl
  · exact .inl rfl
  · exact .inr ⟨t, ht, vals, rfl⟩
  · exact .inl rfl
  · exact .inr ⟨t, ht, vals, rfl⟩

end Outcomes

theorem withGlobals_eq_self {values : M.State}
    (h : ∀ g ∈ globals, values g.name = s g.name) : withGlobals globals values s = s := by
  funext x
  rw [withGlobals]
  split
  · rename_i hx
    obtain ⟨g, hg, rfl⟩ := List.mem_map.mp hx
    exact h g hg
  · rfl

/-- **What a call of the dispatcher means.** It fails exactly if interference from the snapshot to
the globals of now breaks a yield of a subject, for some values of the variables of the subject.  No
execution changes a global.  One that returns has done nothing, and whether there is one depends on
neither the permissions nor the globals. -/
theorem fails_iff_breaks (hM : M.Standard) (hn : (subjects.map Subject.checkerName).Nodup)
    (hvars : ∀ t ∈ subjects, ∀ v ∈ t.vars,
      v.name ∉ globals.map Variable.name ∧ v.name ∉ (inputs p globals).map Variable.name)
    (hglobals : ∀ g ∈ globals, g.name ∉ (inputs p globals).map Variable.name) {start : M.State}
    (hstart : start = setAll s ((inputs p globals).map Variable.name)
      (args p globals permission snapshot)) :
    ((∃ t, Runs p globals permission snapshot subjects program name s (.failed t)) ↔
      ∃ t ∈ subjects, ∃ predicates ∈ t.yields, predicates ≠ [] ∧ ∃ vals, M.Fits t.vars vals ∧
        t.Breaks p permission (withGlobals globals snapshot (t.bind start vals))
          (withGlobals globals s (t.bind start vals)) predicates) ∧
    (∀ o, Runs p globals permission snapshot subjects program name s o →
      ∀ g ∈ globals, o.state g.name = s g.name) ∧
    ∀ u, Runs p globals permission snapshot subjects program name s (.returned u) ↔
      u = start ∧ (subjects = [] ∨ ∃ t ∈ subjects, ∃ vals, M.Fits t.vars vals) := by
  have hinputs := fun t ht v hv => (hvars t ht v hv).2
  have hkept : ∀ g ∈ globals, start g.name = s g.name := by
    intro g hg
    rw [hstart]
    exact setAll_of_notMem (hglobals g hg)
  have hbind : ∀ t ∈ subjects, ∀ vals, ∀ g ∈ globals, (t.bind start vals) g.name = s g.name := by
    intro t ht vals g hg
    rw [← hkept g hg]
    refine setAll_of_notMem fun hm => ?_
    obtain ⟨v, hv, he⟩ := List.mem_map.mp hm
    exact (hvars t ht v hv).1 (he ▸ List.mem_map_of_mem hg)
  have hnow : ∀ t ∈ subjects, ∀ vals,
      withGlobals globals s (t.bind start vals) = t.bind start vals := fun t ht vals =>
    withGlobals_eq_self fun g hg => (hbind t ht vals g hg).symm
  refine ⟨(exists_failed_iff hM hn hinputs hstart).trans ?_, fun o ho => ?_,
    fun u => runs_returned_iff hM hn hinputs hstart⟩
  · refine exists_congr fun t => and_congr_right fun ht => ?_
    simp only [hnow t ht]
  · rcases ho.state_eq hM hn hinputs hstart with h | ⟨t, ht, vals, h⟩
    · exact h ▸ hkept
    · exact h ▸ hbind t ht vals

end Dispatcher

/-! ## An invariant over a counter -/

namespace Counter

/-- All sets of permissions are disjoint. -/
noncomputable def owned : Interpretation := { model with app := fun _ _ => model.bool true }

theorem standard_owned : owned.Standard where
  consistent := standard_model.consistent
  not := standard_model.not
  and := standard_model.and
  or := standard_model.or
  implies := standard_model.implies
  eq := standard_model.eq
  ne := standard_model.ne
  all := standard_model.all
  some := standard_model.some

def count : Variable := { name := "x", type := .int }

def threads : Permissions := ({} : Permissions).addDomain { name := "tid", element := .int }

/-- The counter is positive while the thread is there. -/
def positive : Subject :=
  .invariant
    { name := "Positive"
      layer := 1
      inputs := [{ name := "t", type := .int, domain? := some "tid" }]
      requires := [{ condition := .binary .gt (.var "x") (.int 0) }] }

/-- Interference that resets the counter breaks the invariant. -/
theorem breaks_positive {old now : owned.State} (hold : old "x" = owned.int 1)
    (hnow : now "x" = owned.int 0) :
    positive.Breaks threads (fun _ => owned.bool true) old now
      [.assert (.binary .gt (.var "x") (.int 0))] where
  held := by
    intro c hc e he
    rw [List.mem_singleton.mp hc] at he
    cases he
    rw [Expr.eval, Expr.eval, Expr.eval, hold]
    exact truth_eq.mpr Int.zero_lt_one
  disjoint _ _ _ := rfl
  broken := by
    refine ⟨_, _, List.mem_singleton_self _, fun h => ?_⟩
    rw [Expr.eval, Expr.eval, Expr.eval, hnow] at h
    exact Int.lt_irrefl 0 (truth_eq.mp h)

/-- The dispatcher is called where the counter has been reset. -/
abbrev Reset (o : Outcome owned) : Prop :=
  Dispatcher.Runs threads [count] (fun _ => owned.bool true) (fun _ => owned.int 1) [positive] {}
    "Dispatcher" (fun _ => owned.int 0) o

end Counter

/-- A call of the dispatcher may fail where another thread has reset the counter, and may return. -/
theorem Dispatcher.fails_iff_breaks_positive :
    (∃ t, Counter.Reset (.failed t)) ∧ ∃ t, Counter.Reset (.returned t) := by
  have hfits : Counter.owned.Fits Counter.positive.vars [Counter.owned.int 7] :=
    .cons ⟨7, rfl⟩ .nil
  obtain ⟨hfails, -, hreturns⟩ :
      ((∃ t, Counter.Reset (.failed t)) ↔ _) ∧ (∀ o, Counter.Reset o → _) ∧
        ∀ u, Counter.Reset (.returned u) ↔ _ :=
    Dispatcher.fails_iff_breaks Counter.standard_owned (by decide) (by decide) (by decide) rfl
  refine ⟨hfails.mpr ⟨_, List.mem_singleton_self _, _, List.mem_singleton_self _,
    List.cons_ne_nil _ _, _, hfits, Counter.breaks_positive ?_ ?_⟩, _,
    (hreturns _).mpr ⟨rfl, .inr ⟨_, List.mem_singleton_self _, _, hfits⟩⟩⟩
  · rfl
  · rfl

namespace Counter

/-- A flag, and a second one with the name of the formal for the first. -/
def flags : List Variable := [{ name := "x", type := .bool }, { name := "__old_x", type := .bool }]

/-- The second flag is set. -/
def flagged : Subject :=
  .invariant { name := "Flagged", layer := 1, requires := [{ condition := .var "__old_x" }] }

/-- Only the second flag is set. -/
noncomputable def onlySecond : model.State := fun y => model.bool (y == "__old_x")

/-- The dispatcher is called where nothing has happened. -/
abbrev Unchanged (o : Outcome model) : Prop :=
  Dispatcher.Runs {} flags onlySecond onlySecond [flagged] {} "Dispatcher" onlySecond o

end Counter

/-- Where a global has the name of a formal, a call may fail although nothing has happened: the
check reads the formal instead of the global. -/
theorem Dispatcher.fails_of_shadowed :
    ([Counter.flagged].map Subject.checkerName).Nodup ∧
    (∀ t ∈ [Counter.flagged], ∀ v ∈ t.vars, v.name ∉ Counter.flags.map Variable.name ∧
      v.name ∉ (Checker.inputs {} Counter.flags).map Variable.name) ∧
    (∃ t, Counter.Unchanged (.failed t)) ∧
    ∀ start, ¬ ∃ t ∈ [Counter.flagged], ∃ predicates ∈ t.yields, predicates ≠ [] ∧
      ∃ vals, Counter.model.Fits t.vars vals ∧
        t.Breaks {} Counter.onlySecond
          (Checker.withGlobals Counter.flags Counter.onlySecond (t.bind start vals))
          (Checker.withGlobals Counter.flags Counter.onlySecond (t.bind start vals))
          predicates := by
  have hn : ([Counter.flagged].map Subject.checkerName).Nodup := by decide
  refine ⟨hn, by decide, ?_, ?_⟩
  · refine ⟨_, (Dispatcher.runs_iff Counter.standard_model hn (by decide) rfl).mpr (.inr (.inr
      ⟨_, List.mem_singleton_self _, [], .nil, .inr (.inr ⟨_, List.mem_singleton_self _,
        List.cons_ne_nil _ _, ⟨?_, ?_, ?_⟩, rfl⟩)⟩))⟩
    · intro c hc e he
      rw [List.mem_singleton.mp hc] at he
      cases he
      rfl
    · intro d hd
      exact absurd hd List.not_mem_nil
    · refine ⟨_, _, List.mem_singleton_self _, fun h => ?_⟩
      cases h
  · intro start hx
    obtain ⟨t, ht, ps, hps, -, vals, -, hb⟩ := hx
    rw [List.mem_singleton.mp ht] at hps
    rw [List.mem_singleton.mp hps] at hb
    obtain ⟨e, m?, he, hne⟩ := hb.broken
    cases List.mem_singleton.mp he
    exact hne rfl

end LayerCheck
