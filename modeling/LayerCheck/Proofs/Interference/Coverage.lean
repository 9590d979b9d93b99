import LayerCheck.Proofs.Expr.Fresh
import LayerCheck.Proofs.Plan

/-!
# What the interference checkers cover

Every subject of a layer has a checker among the declarations, with a sink for each of its yields
that relies on something.  The dispatcher has one branch for each checker.

* `Checker.exists_sink`: the sink of a yield.
* `Dispatcher.length_filter_calls`: how many branches of the dispatcher call a checker.
* `Setting.mem_output_of_subject`: the checkers of all subjects are declared.
-/

namespace LayerCheck

/-- The block calls the procedure. -/
def Block.calls (b : Block) (callee : String) : Bool :=
  b.commands.any fun
    | .call c => c.callee == callee
    | _ => false

/-- The condition of an assertion. -/
def Command.asserted? : Command → Option Expr
  | .assert e _ => some e
  | _ => none

theorem Command.mem_yieldPredicates (pre rest : List Command) (id : CommandId) :
    leadingPredicates rest ∈ yieldPredicates (pre ++ .yield id :: rest) := by
  induction pre with
  | nil => exact List.mem_cons_self
  | cons c pre ih =>
    cases c with
    | yield id' => exact List.mem_cons_of_mem _ ih
    | _ => exact ih

theorem nodup_numbered {α : Type} (kind : String) (l : List α) :
    (l.zipIdx.map fun a => kind ++ toString a.2).Nodup := by
  have hl : l.zipIdx.map (fun a => kind ++ toString a.2) =
      (List.range' 0 l.length).map fun n => kind ++ toString n := by
    rw [← List.zipIdx_map_snd, List.map_map]
    rfl
  rw [hl]
  refine List.Nodup.map (fun m n h => ?_) List.nodup_range'
  exact Fresh.toString_injective ((String.append_right_inj _).mp h)

namespace Checker

/-- The checks of a yield, spelled out. -/
theorem commands_eq (p : Permissions) (globals vars : List Variable) (predicates : List Command) :
    commands p globals vars predicates =
      ((predicates.filterMap Command.predicate?).map fun e =>
        .assume (e.substOld (oldGlobals globals) (oldGlobals globals))) ++
      (p.domains.values.filterMap fun d => d.disjointWith? d.formal vars).map .assume ++
      (predicates.filterMap Command.asserted?).map fun e =>
        .assert (e.substOld ∅ (oldGlobals globals)) (some message) := by
  have hb : predicates.filterMap (assumeBefore? (oldGlobals globals)) =
      (predicates.filterMap Command.predicate?).map fun e =>
        .assume (e.substOld (oldGlobals globals) (oldGlobals globals)) := by
    rw [List.map_filterMap]
    rfl
  have ha : predicates.filterMap (assertAfter? (oldGlobals globals)) =
      (predicates.filterMap Command.asserted?).map fun e =>
        .assert (e.substOld ∅ (oldGlobals globals)) (some message) := by
    rw [List.map_filterMap]
    apply List.filterMap_congr
    intro c _
    cases c <;> rfl
  rw [commands]
  simp only [hb, ha]

/-! ### Blocks -/

theorem nodup_labels (p : Permissions) (globals : List Variable) (t : Subject) :
    (ofSubject p globals t).implementation.labels.Nodup := by
  have hl : (ofSubject p globals t).implementation.labels = "enter" :: "exit" ::
      (t.yields.filter (!·.isEmpty)).zipIdx.map fun a => "L" ++ toString a.2 := by
    show Block.label _ :: Block.label _ :: List.map Block.label (List.map _ _) = _
    rw [List.map_map]
    rfl
  have hfirst : ∀ n : String, n.toList.head? ≠ some 'L' →
      n ∉ (t.yields.filter (!·.isEmpty)).zipIdx.map fun a => "L" ++ toString a.2 := by
    intro n hn hm
    obtain ⟨a, -, rfl⟩ := List.mem_map.mp hm
    exact hn (by simp)
  rw [hl, List.nodup_cons, List.nodup_cons, List.mem_cons, not_or]
  exact ⟨⟨by decide, hfirst _ (by decide)⟩, hfirst _ (by decide), nodup_numbered "L" _⟩

variable {p : Permissions} {globals : List Variable} {s : Subject}

/-- **A yield that relies on something has a sink, to which the checker may jump at once.** -/
theorem exists_sink {predicates : List Command} (h : predicates ∈ s.yields)
    (hne : predicates ≠ []) : ∃ entry b,
      (ofSubject p globals s).implementation.blocks.head? = some entry ∧
      b ∈ (ofSubject p globals s).implementation.blocks ∧ b.label ∈ entry.successors ∧
      b.commands = commands p globals s.vars predicates ++ [.stop] := by
  have hf : predicates ∈ s.yields.filter (!·.isEmpty) :=
    List.mem_filter.mpr ⟨h, by simpa using hne⟩
  obtain ⟨i, hi⟩ := List.getElem?_of_mem hf
  have hz : (predicates, i) ∈ (s.yields.filter (!·.isEmpty)).zipIdx :=
    List.mem_zipIdx_iff_getElem?.mpr hi
  have hm : Block.sink ("L" ++ toString i) (commands p globals s.vars predicates) ∈
      (s.yields.filter (!·.isEmpty)).zipIdx.map fun e =>
        Block.sink ("L" ++ toString e.2) (commands p globals s.vars e.1) :=
    List.mem_map_of_mem hz
  exact ⟨_, _, rfl, List.mem_cons_of_mem _ (List.mem_cons_of_mem _ hm),
    List.mem_map_of_mem (List.mem_cons_of_mem _ hm), rfl⟩

end Checker

namespace Dispatcher

theorem nodup_labels (d : Procedure) (names : List String) :
    (implementation d names).labels.Nodup := by
  have hl : (implementation d names).labels =
      "enter" :: names.zipIdx.map fun a => "L_" ++ toString a.2 := by
    show Block.label _ :: List.map Block.label (List.map _ _) = _
    rw [List.map_map]
    rfl
  rw [hl, List.nodup_cons]
  refine ⟨fun hm => ?_, nodup_numbered "L_" _⟩
  obtain ⟨a, -, h⟩ := List.mem_map.mp hm
  have h1 := congrArg (fun n : String => n.toList.head?) h
  simp at h1

/-- **The dispatcher has a branch for each mention of a checker.** -/
theorem length_filter_calls (args : List Expr) (names : List String) (k : Nat) (name : String) :
    (((names.zipIdx k).map fun (c, i) => branch args i c).filter (·.calls name)).length =
      names.count name := by
  induction names generalizing k with
  | nil => rfl
  | cons n names ih =>
    have hb : (branch args k n).calls name = (n == name) := by simp [branch, Block.calls]
    rw [List.zipIdx_cons, List.map_cons, List.filter_cons, hb, List.count_cons]
    split
    · rw [List.length_cons, ih]
    · rw [ih, Nat.add_zero]

end Dispatcher

namespace Setting

variable (s : Setting) (l : Layer)

/-- What every check takes: the permissions of each domain, then the globals as they were. -/
def checkFormals : List Variable :=
  (s.permissions.domains.values.map fun d =>
    { name := "__linear_" ++ d.name ++ "_in", type := .map d.element .bool }) ++
  s.facts.globals.map fun g => { g with name := "__old_" ++ g.name }

/-- All whose yields are checked at the layer. -/
def layerSubjects (plans : List Plan) : List Subject :=
  (s.facts.activeInvariants l).map Subject.invariant ++ plans.flatMap (subjects l)

variable {s l}

theorem interferenceCheckers_eq (ht : s.trusted = false) (plans : List Plan) :
    s.interferenceCheckers l plans =
      (s.layerSubjects l plans).flatMap fun subject => (s.checker subject).declarations := by
  rw [interferenceCheckers, if_neg (by rw [ht]; decide)]
  rfl

/-- The names of the checkers, as the dispatcher gets them. -/
theorem procedureNames_interferenceCheckers (ht : s.trusted = false) (plans : List Plan) :
    Declaration.procedureNames (s.interferenceCheckers l plans) =
      (s.layerSubjects l plans).map Subject.checkerName := by
  rw [interferenceCheckers_eq ht]
  induction s.layerSubjects l plans with
  | nil => rfl
  | cons t ts ih =>
    rw [List.flatMap_cons, List.map_cons, ← ih]
    rfl

/-- **The checker of every subject is among the declarations.** -/
theorem mem_output_of_subject (ht : s.trusted = false) {plans : List Plan}
    (contracts : Table String Procedure) {t : Subject} (hs : t ∈ s.layerSubjects l plans) :
    .procedure (s.checker t).procedure ∈ (s.output l plans contracts).declarations ∧
      .implementation (s.checker t).implementation ∈
        (s.output l plans contracts).declarations := by
  have hd : ∀ d ∈ (s.checker t).declarations, d ∈ (s.output l plans contracts).declarations := by
    intro d hd
    have hc : d ∈ s.interferenceCheckers l plans := by
      rw [interferenceCheckers_eq ht]
      exact List.mem_flatMap.mpr ⟨t, hs, hd⟩
    simp only [output, outputOf, List.mem_append]
    exact .inl (.inl (.inl hc))
  exact ⟨hd _ (by simp [Checker.declarations]), hd _ (by simp [Checker.declarations])⟩

/-- The dispatcher is among the declarations, with the checkers of all subjects. -/
theorem mem_output_dispatcher (ht : s.trusted = false) (plans : List Plan)
    (contracts : Table String Procedure) :
    .implementation (Dispatcher.implementation (s.dispatcher l)
      ((s.layerSubjects l plans).map Subject.checkerName)) ∈
        (s.output l plans contracts).declarations := by
  simp only [output, outputOf, dispatcherDeclarations, procedureNames_interferenceCheckers ht,
    List.mem_append]
  exact .inr (by simp)

end Setting

/-! ## Names of checkers -/

namespace Subject

/-- The character by which the names of checkers of different kinds differ. -/
def mark : Subject → Char
  | invariant _ => 'n'
  | procedure _ => 'r'
  | implementation _ => 'm'

def name : Subject → String
  | invariant i => i.name
  | procedure p => p.name
  | implementation i => i.name

/-- What the names of all checkers of one kind begin with. -/
def kind : Subject → String
  | invariant _ => "NoninterferenceChecker_invariant_"
  | procedure _ => "NoninterferenceChecker_proc_"
  | implementation _ => "NoninterferenceChecker_impl_"

theorem checkerName_eq (t : Subject) : t.checkerName = t.kind ++ t.name := by
  cases t <;> rfl

theorem getElem?_checkerName (t : Subject) : t.checkerName.toList[24]? = some t.mark := by
  have hk : 24 < t.kind.toList.length := by
    cases t <;> (simp only [kind]; decide)
  rw [checkerName_eq, String.toList_append, List.getElem?_append_left hk]
  cases t <;> (simp only [kind, mark]; decide)

/-- **Checkers are told apart by the kinds and names of their subjects.** -/
theorem checkerName_inj {t u : Subject} :
    t.checkerName = u.checkerName ↔ t.mark = u.mark ∧ t.name = u.name := by
  have hkind : t.mark = u.mark → t.kind = u.kind := by
    cases t <;> cases u <;> simp [mark, kind]
  constructor
  · intro h
    have hm : t.mark = u.mark := by
      rw [← Option.some_inj, ← getElem?_checkerName, ← getElem?_checkerName, h]
    rw [checkerName_eq, checkerName_eq, hkind hm] at h
    exact ⟨hm, (String.append_right_inj _).mp h⟩
  · intro hx
    obtain ⟨hm, hn⟩ := hx
    rw [checkerName_eq, checkerName_eq, hkind hm, hn]

end Subject

namespace Setting

variable {s : Setting} {l : Layer}

theorem count_checkerName (ts : List Subject) (t : Subject) :
    (ts.map Subject.checkerName).count t.checkerName =
      ts.countP fun u => u.mark == t.mark && u.name == t.name := by
  rw [List.count, List.countP_map]
  apply List.countP_congr
  intro u _
  simp [Subject.checkerName_inj]

theorem countP_layerSubjects (p : Subject → Bool) (plans : List Plan) :
    (s.layerSubjects l plans).countP p =
      (s.facts.activeInvariants l).countP (fun i => p (.invariant i)) +
        (plans.countP (fun q => p (.implementation q.implementation)) +
          (concurrent l plans).countP fun q => p (.procedure q.procedure)) := by
  rw [layerSubjects, List.countP_append, List.countP_map]
  congr 1
  induction plans with
  | nil => rfl
  | cons q plans ih =>
    have hcons : concurrent l (q :: plans) =
        if !q.isAtomicAt l then q :: concurrent l plans else concurrent l plans := List.filter_cons
    rw [List.flatMap_cons, List.countP_append, ih, List.countP_cons, hcons, subjects]
    cases q.isAtomicAt l with
    | true =>
      simp only [List.countP_cons, List.countP_nil, if_true, Bool.not_true, Bool.false_eq_true,
        if_false]
      omega
    | false =>
      simp only [List.countP_cons, List.countP_nil, if_true, Bool.not_false, Bool.false_eq_true,
        if_false]
      omega

/-- The checker of a copy has one branch of the dispatcher. -/
theorem count_implementation {plans : List Plan} (hn : (plans.map Plan.name).Nodup) {q : Plan}
    (hq : q ∈ plans) :
    ((s.layerSubjects l plans).map Subject.checkerName).count
      (Subject.implementation q.implementation).checkerName = 1 := by
  have hc : (plans.map Plan.name).count q.name = 1 :=
    List.count_eq_one_of_mem hn (List.mem_map_of_mem hq)
  rw [List.count, List.countP_map] at hc
  rw [count_checkerName, countP_layerSubjects]
  simpa [Subject.mark, Subject.name, Function.comp_def, Plan.name] using hc

/-- The checker of a contract has a branch for each copy that is made sequential and implements
it. -/
theorem count_procedure (plans : List Plan) (p : Procedure) :
    ((s.layerSubjects l plans).map Subject.checkerName).count
      (Subject.procedure p).checkerName =
        (concurrent l plans).countP fun q => q.procedure.name == p.name := by
  rw [count_checkerName, countP_layerSubjects]
  simp [Subject.mark, Subject.name]

/-- The checker of an invariant of the layer has one branch. -/
theorem count_invariant (plans : List Plan) {i : YieldInvariant}
    (hi : i ∈ s.facts.activeInvariants l) :
    ((s.layerSubjects l plans).map Subject.checkerName).count
      (Subject.invariant i).checkerName = 1 := by
  have hn : ((s.facts.activeInvariants l).map YieldInvariant.name).Nodup :=
    (List.filter_sublist.map _).nodup s.facts.invariants_keyed.nodup_names
  have hc := List.count_eq_one_of_mem hn (List.mem_map_of_mem hi)
  rw [List.count, List.countP_map] at hc
  rw [count_checkerName, countP_layerSubjects]
  simpa [Subject.mark, Subject.name, Function.comp_def] using hc

end Setting

end LayerCheck
