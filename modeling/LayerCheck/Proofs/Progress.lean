import LayerCheck.Proofs.Aggregator
import LayerCheck.Proofs.Contract
import LayerCheck.Transform

/-!
# A layer of which nothing is missing

Copies, their procedures and the commands that they start with are looked up by name while the
program changes, and what is missing is passed over without a word.  If the program has the copy of
every plan and the procedure of that copy, nothing is: one copy after the other finds what its plan
says, and leaves what the others are about to look up.

* `Plan.Present`: the program has what the plan says.
* `Setting.transformProgram`, `Setting.output`: the layer without look-ups.
* `Setting.transformNext_eq`: what becomes of one copy.
* `Setting.foldl_transformNext`: what becomes of all of them.
-/

namespace LayerCheck

/-! ## A copy that is found with its preconditions -/

namespace Sequential

/-- Starts from any state that the contract allows. -/
def initialBlock (q : Sequential) (others : List Block) : Block :=
  q.initialBlockFrom (q.setting.preconditions q.layer q.plan) others

@[simp] theorem label_initialBlock (q : Sequential) (others : List Block) :
    (q.initialBlock others).label = Label.initial := rfl

def blocks (q : Sequential) : List Block :=
  q.blocksFrom (q.setting.preconditions q.layer q.plan)

def implementation (q : Sequential) : Implementation :=
  q.implementationFrom (q.setting.preconditions q.layer q.plan)

end Sequential

/-! ## The layer without look-ups -/

namespace Setting

section Resolved

variable (s : Setting) (l : Layer)

/-- What is checked for a copy: its yields and, unless it is atomic, its contract. -/
def subjects (p : Plan) : List Subject :=
  .implementation p.implementation ::
    if p.isAtomicAt l then [] else [.procedure p.procedure]

def interferenceCheckers (plans : List Plan) : List Declaration :=
  if s.trusted then []
  else ((s.facts.activeInvariants l).map Subject.invariant ++ plans.flatMap (subjects l)).flatMap
    fun subject => (s.checker subject).declarations

/-- The copy at the layer. -/
def transformCopy (p : Plan) : Implementation :=
  s.transformCopyFrom l p (s.preconditions l p) p.implementation

variable {s l} in
theorem transformCopy_of_concurrent {p : Plan} (h : p.isAtomicAt l = false) :
    s.transformCopy l p = Sequential.implementation { setting := s, layer := l, plan := p } := by
  rw [transformCopy, transformCopyFrom, if_neg (by rw [h]; decide)]
  rfl

variable {s l} in
theorem transformCopy_of_atomic {p : Plan} (h : p.isAtomicAt l = true) : s.transformCopy l p =
    p.implementation.withDisjointness s.permissions s.copies s.yielding := by
  rw [transformCopy, transformCopyFrom, if_pos h]

@[simp] theorem name_transformCopy (p : Plan) : (s.transformCopy l p).name = p.name :=
  s.name_transformCopyFrom l p _ p.implementation

/-- The program with the contracts of the layer and all copies changed. -/
def transformProgram (plans : List Plan) (p : Program) : Program :=
  { p with
    procedures := s.contracts l plans p.procedures
    implementations := p.implementations.insertAll
      (plans.map fun plan => (plan.name, s.transformCopy l plan))
    implementations_keyed := p.implementations_keyed.insertAll (by simp) }

/-- The plans of the copies that are made sequential. -/
def concurrent (plans : List Plan) : List Plan := plans.filter fun p => !p.isAtomicAt l

def aggregators (plans : List Plan) (contracts : Table String Procedure) :
    Table String Procedure :=
  Aggregator.table contracts s.globals
    ((concurrent l plans).flatMap fun p =>
      Sequential.parCalls { setting := s, layer := l, plan := p })

def output (plans : List Plan) (contracts : Table String Procedure) : LayerOutput :=
  s.outputOf l (s.interferenceCheckers l plans)
    { implementations := ∅
      implementations_keyed := Table.keyedBy_empty
      entries := ∅
      aggregators := s.aggregators l plans contracts
      transformed := (concurrent l plans).map Plan.name
      skipped := (plans.filter (·.isAtomicAt l)).map Plan.name }

end Resolved

end Setting

/-! ## Look-ups that succeed -/

/-- The program has the copy of the plan, and its procedure. -/
structure Plan.Present (p : Program) (plan : Plan) : Prop where
  implementation : p.implementations.get? plan.name = some plan.implementation
  procedure : p.procedures.get? plan.implementation.procedure = some plan.procedure

namespace Plan.Present

variable {p : Program} {plan : Plan}

theorem copy?_eq (h : plan.Present p) : plan.copy? p = some plan := by
  rw [copy?, h.implementation]
  rfl

theorem contract?_eq (h : plan.Present p) : plan.contract? p = some plan := by
  rw [contract?, h.procedure]
  rfl

end Plan.Present

namespace Setting

variable {s : Setting} {l : Layer} {p : Program} {plans : List Plan}

theorem contractsIn_eq (h : ∀ plan ∈ plans, plan.Present p) :
    s.contractsIn l p plans = s.contracts l plans p.procedures := by
  have hf : plans.filterMap (·.copy? p) = plans := by
    rw [List.filterMap_congr fun plan hm => (h plan hm).copy?_eq]
    exact List.filterMap_some
  rw [contractsIn, hf]

theorem interferenceCheckersIn_eq (h : ∀ plan ∈ plans, plan.Present p) :
    s.interferenceCheckersIn l p plans = s.interferenceCheckers l plans := by
  have hs : plans.flatMap (subjectsIn l p) = plans.flatMap (subjects l) := by
    refine List.flatMap_congr fun plan hm => ?_
    simp only [subjectsIn, subjects, (h plan hm).copy?_eq, (h plan hm).contract?_eq,
      Option.map_some, Option.toList_some]
  rw [interferenceCheckersIn, interferenceCheckers, hs]

/-- **Every copy finds its preconditions.** -/
theorem get?_entries (h : ∀ plan ∈ plans, plan.Present p) (hn : (plans.map Plan.name).Nodup)
    {plan : Plan} (hm : plan ∈ plans) :
    (s.entries l p plans).get? plan.name = some (s.preconditions l plan) := by
  have hf : (plans.filterMap fun plan => ((plan.copy? p).bind (·.contract? p)).map fun found =>
      (plan.name, s.preconditions l found)) =
      plans.map fun plan => (plan.name, s.preconditions l plan) := by
    rw [← List.filterMap_eq_map']
    refine List.filterMap_congr fun plan hm => ?_
    rw [(h plan hm).copy?_eq, Option.bind_some, (h plan hm).contract?_eq, Option.map_some]
  rw [entries, hf, Table.get?_ofList_eq_some_iff (by rwa [List.map_map])]
  exact List.mem_map_of_mem hm

/-! ## One copy after the other -/

variable {contracts : Table String Procedure} {a : Progress} {plan : Plan}

/-- What a copy that finds what its plan says does to the progress of the layer. -/
structure Advances (s : Setting) (l : Layer) (contracts : Table String Procedure)
    (plans : List Plan) (a b : Progress) : Prop where
  implementations : b.implementations = a.implementations.insertAll
    (plans.map fun plan => (plan.name, s.transformCopy l plan))
  aggregators : b.aggregators = Aggregator.declare contracts s.globals a.aggregators
    ((concurrent l plans).flatMap fun p =>
      Sequential.parCalls { setting := s, layer := l, plan := p })
  transformed : b.transformed = a.transformed ++ (concurrent l plans).map Plan.name
  skipped : b.skipped = a.skipped ++ (plans.filter (·.isAtomicAt l)).map Plan.name
  /-- Only its own entry is used up. -/
  entries : ∀ name, name ∉ plans.map Plan.name → b.entries.get? name = a.entries.get? name

variable (contracts) in
/-- **One copy.** -/
theorem transformNext_eq (hi : a.implementations.get? plan.name = some plan.implementation)
    (he : a.entries.get? plan.name = some (s.preconditions l plan)) :
    s.Advances l contracts [plan] a (s.transformNext l contracts a plan) := by
  have hmodify : a.implementations.modify plan.name
      (s.transformCopyFrom l plan (s.preconditions l plan)) =
        a.implementations.insert plan.name (s.transformCopy l plan) :=
    Table.modify_eq_insert hi _
  cases hat : plan.isAtomicAt l with
  | true =>
    have hc : concurrent l [plan] = [] := by simp [concurrent, hat]
    have hs : [plan].filter (·.isAtomicAt l) = [plan] := by simp [hat]
    simp only [transformNext, hi, he, hat, Option.getD_some, if_true]
    exact ⟨hmodify, by rw [hc]; rfl, by rw [hc]; exact (List.append_nil _).symm, by rw [hs]; rfl,
      fun _ _ => rfl⟩
  | false =>
    have hc : concurrent l [plan] = [plan] := by simp [concurrent, hat]
    have hs : [plan].filter (·.isAtomicAt l) = [] := by simp [hat]
    simp only [transformNext, hi, he, hat, Option.getD_some, Bool.false_eq_true, if_false]
    refine ⟨hmodify, ?_, by rw [hc]; rfl, by rw [hs]; exact (List.append_nil _).symm, ?_⟩
    · rw [hc, List.flatMap_singleton]
    · intro name hn
      rw [Table.get?_erase, if_neg (by simpa using hn)]

theorem Advances.append {ps qs : List Plan} {b c : Progress} (h : s.Advances l contracts ps a b)
    (h' : s.Advances l contracts qs b c) : s.Advances l contracts (ps ++ qs) a c := by
  constructor
  case implementations =>
    rw [h'.implementations, h.implementations, List.map_append]
    exact List.foldl_append.symm
  case aggregators =>
    rw [h'.aggregators, h.aggregators, ← Aggregator.declare_append, ← List.flatMap_append,
      concurrent, concurrent, concurrent, List.filter_append]
  case transformed =>
    rw [h'.transformed, h.transformed, concurrent, concurrent, concurrent, List.filter_append,
      List.map_append, List.append_assoc]
  case skipped =>
    rw [h'.skipped, h.skipped, List.filter_append, List.map_append, List.append_assoc]
  case entries =>
    intro name hn
    rw [List.map_append, List.mem_append, not_or] at hn
    rw [h'.entries name hn.2, h.entries name hn.1]

variable (contracts) in
/-- **All copies.**  They have different names, so what one of them leaves is what the next one
finds. -/
theorem foldl_transformNext (hn : (plans.map Plan.name).Nodup)
    (hi : ∀ plan ∈ plans, a.implementations.get? plan.name = some plan.implementation)
    (he : ∀ plan ∈ plans, a.entries.get? plan.name = some (s.preconditions l plan)) :
    s.Advances l contracts plans a (plans.foldl (s.transformNext l contracts) a) := by
  induction plans generalizing a with
  | nil =>
    exact ⟨rfl, rfl, (List.append_nil _).symm, (List.append_nil _).symm, fun _ _ => rfl⟩
  | cons plan plans ih =>
    rw [List.map_cons, List.nodup_cons] at hn
    rw [List.forall_mem_cons] at hi he
    have hnext := transformNext_eq contracts hi.1 he.1
    have hne : ∀ q ∈ plans, q.name ≠ plan.name := fun q hq h =>
      hn.1 (h ▸ List.mem_map_of_mem hq)
    refine hnext.append (ih hn.2 (fun q hq => ?_) fun q hq => ?_)
    · rw [hnext.implementations]
      exact (Table.get?_insert_of_ne _ (hne q hq) _).trans (hi.2 q hq)
    · rw [hnext.entries _ (by simpa using hne q hq)]
      exact he.2 q hq

/-- **If the program has what the plans say, the layer does what they say.** -/
theorem transform_of_present (hp : s.plan l p = .ok plans) (h : ∀ plan ∈ plans, plan.Present p)
    (hn : (plans.map Plan.name).Nodup) : s.transform l p = .ok (s.transformProgram l plans p,
      s.output l plans (s.transformProgram l plans p).procedures) := by
  have ha := foldl_transformNext (s := s) (l := l) (a := s.start l p plans)
    (s.contracts l plans p.procedures) hn (fun plan hm => (h plan hm).implementation)
    fun plan hm => get?_entries h hn hm
  rw [← contractsIn_eq h] at ha
  have hc : s.contractsIn l p plans = s.contracts l plans p.procedures := contractsIn_eq h
  have ht : s.transform l p = .ok ({ p with
      procedures := s.contractsIn l p plans
      implementations := (s.transformCopies l p plans (s.contractsIn l p plans)).implementations
      implementations_keyed := Progress.implementations_keyed _ },
    s.outputOf l (s.interferenceCheckersIn l p plans)
      (s.transformCopies l p plans (s.contractsIn l p plans))) := by
    rw [transform, hp]
    rfl
  rw [ht, interferenceCheckersIn_eq h]
  change s.Advances l _ plans _ (s.transformCopies l p plans (s.contractsIn l p plans)) at ha
  generalize s.transformCopies l p plans (s.contractsIn l p plans) = b at ha ⊢
  obtain ⟨himps, haggs, htrans, hskip, -⟩ := ha
  obtain ⟨is, _, es, as, ts, ss⟩ := b
  obtain rfl := himps
  obtain rfl := haggs
  obtain rfl := htrans
  obtain rfl := hskip
  simp only [hc]
  rfl

end Setting

end LayerCheck
