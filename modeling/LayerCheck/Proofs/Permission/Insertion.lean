import LayerCheck.Proofs.Flow.NaturalLoops
import LayerCheck.Proofs.Permission.Collected
import LayerCheck.Proofs.Permission.Disjointness

/-!
# Where disjointness is assumed

A fact that is assumed at the wrong place makes wrong programs pass, and nobody sees it.  So the
places are spelled out: behind each parallel call and each call of a yielding procedure for the
site of that command, at the head of each loop header for the site of the block that it comes from,
and nowhere else.  What is assumed at a site is, for each domain with two available variables or
more, that what these variables carry is disjoint.  Labels and jumps stay as they are, so the flow
graph does too, and the loop headers before and after are the same.

* `Permissions.assumptionsAt`: what is assumed at a site, `Permissions.assumeDisjoint_eq`.
* `Permissions.assumptionsWithGlobals`: the same beside what the globals carry.
* `Implementation.withoutDisjointness`: takes the assumptions away again.
* `Implementation.flow_withDisjointness`: the flow graph stays.
* `Implementation.disjointness_exact`: which assumptions are inserted, and where.
-/

namespace LayerCheck

namespace Permissions

variable (p : Permissions) (yielding : List String) (scope : List Variable)

/-- Whether variables of the name are available at the site. -/
def offers (s : Site) (x : String) : Bool :=
  match p.recorded.get? s with
  | some names => names.contains x
  | none => s.isEntry

/-- The variables of the domain that are available at the site, in the order of the scope. -/
def availableIn (s : Site) (d : Domain) : List Variable :=
  scope.filter fun v => v.domain? = some d.name ∧ p.offers s v.name

/-- For each domain of which two or more variables are available at the site, that the sets
collected from them are disjoint. -/
def assumptionsAt (s : Site) : List Command :=
  (p.domains.values.filter fun d => 2 ≤ (p.availableIn scope s d).length).map fun d =>
    .assume (.app (d.name ++ "_disjoint")
      ((p.availableIn scope s d).map fun v => .app (d.name ++ "_collect") [.var v.name]))

/-- The variables that carry permissions of the domain at the site: those of the scope that are
available there, then the globals. -/
def carriersIn (globals : List Variable) (s : Site) (d : Domain) : List Variable :=
  p.availableIn scope s d ++ globals.filter fun g => g.domain? = some d.name

/-- For each domain of which two or more variables carry permissions at the site, globals among them,
that the sets collected from them are disjoint. -/
def assumptionsWithGlobals (globals : List Variable) (s : Site) : List Command :=
  (p.domains.values.filter fun d => 2 ≤ (p.carriersIn scope globals s d).length).map fun d =>
    .assume (.app (d.name ++ "_disjoint")
      ((p.carriersIn scope globals s d).map fun v => .app (d.name ++ "_collect") [.var v.name]))

/-- What is assumed directly behind a command. -/
def assumptionsBehind : Command → List Command
  | .call c => if c.callee ∈ yielding then p.assumptionsAt scope (.command c.id) else []
  | .par c => p.assumptionsAt scope (.command c.id)
  | _ => []

/-- Takes away what is assumed behind the commands. -/
def withoutBehind : List Command → List Command
  | [] => []
  | c :: cs => c :: withoutBehind (cs.drop (p.assumptionsBehind yielding scope c).length)
termination_by cs => cs.length
decreasing_by
  rw [List.length_cons, List.length_drop]
  omega

/-! ## What is assumed -/

theorem available_eq (s : Site) :
    p.available s scope = scope.filter fun v => v.isLinear && p.offers s v.name := by
  rw [available]
  cases hr : p.recorded.get? s with
  | some names => simp [offers, hr, List.filter_filter, Bool.and_comm]
  | none =>
    cases hs : s.isEntry with
    | true => simp [offers, hr, hs]
    | false => simp [offers, hr, hs]

theorem filter_available (s : Site) (d : Domain) :
    (p.available s scope).filter (fun v => v.domain? = some d.name) = p.availableIn scope s d := by
  rw [available_eq, List.filter_filter, availableIn]
  refine List.filter_congr fun v _ => ?_
  -- what belongs to a domain is linear
  by_cases hv : v.domain? = some d.name
  · simp [hv, Variable.isLinear]
  · simp [hv]

theorem held_available (s : Site) (d : Domain) :
    d.held (p.available s scope) = (p.availableIn scope s d).map d.collect := by
  rw [Domain.held, filter_available]

/-- One condition is assumed for each domain that two variables or more carry permissions of. -/
theorem map_assume_disjointness {vars : List Variable} {carriers : Domain → List Variable}
    (h : ∀ d, d.held vars = (carriers d).map d.collect) :
    (p.disjointness vars).map .assume =
      (p.domains.values.filter fun d => 2 ≤ (carriers d).length).map fun d =>
        Command.assume (.app (d.name ++ "_disjoint")
          ((carriers d).map fun v => .app (d.name ++ "_collect") [.var v.name])) := by
  rw [disjointness_eq, List.map_filterMap]
  induction p.domains.values with
  | nil => rfl
  | cons d ds ih =>
    rw [List.filterMap_cons, h, Domain.disjoint?, List.length_map]
    by_cases hd : 2 ≤ (carriers d).length
    · rw [if_neg (Nat.not_lt.mpr hd), List.filter_cons_of_pos (by simpa using hd), List.map_cons,
        ← ih]
      rfl
    · rw [if_pos (Nat.not_le.mp hd), List.filter_cons_of_neg (by simpa using hd), ← ih]
      rfl

/-- **At a site, one condition is assumed for each domain with two available variables or more.** -/
theorem assumeDisjoint_eq (s : Site) : p.assumeDisjoint s scope = p.assumptionsAt scope s := by
  rw [assumeDisjoint, disjointnessAt, List.filter_nil, List.append_nil]
  exact p.map_assume_disjointness fun d => p.held_available scope s d

/-- **Where globals count too, they come behind the available variables.** -/
theorem assumeDisjoint_globals_eq (globals : List Variable) (s : Site) :
    p.assumeDisjoint s scope globals = p.assumptionsWithGlobals scope globals s := by
  refine p.map_assume_disjointness fun d => ?_
  have hg : d.held (globals.filter Variable.isLinear) =
      (globals.filter fun g => g.domain? = some d.name).map d.collect := by
    rw [Domain.held, List.filter_filter]
    refine congrArg (List.map d.collect) (List.filter_congr fun v _ => ?_)
    by_cases hv : v.domain? = some d.name
    · simp [hv, Variable.isLinear]
    · simp [hv]
  rw [carriersIn, List.map_append, ← held_available, ← hg, Domain.held, Domain.held, Domain.held,
    List.filter_append, List.map_append]

theorem assumeAfter_eq_cons (c : Command) :
    p.assumeAfter yielding scope c = c :: p.assumptionsBehind yielding scope c := by
  have hsite : ∀ s, p.assumeDisjoint s scope = p.assumptionsAt scope s :=
    fun s => p.assumeDisjoint_eq scope s
  cases c with
  | call c =>
    rw [assumeAfter, Command.yieldSite?, assumptionsBehind]
    by_cases hc : c.callee ∈ yielding
    · rw [if_pos hc, if_pos hc, Option.map_some, Option.getD_some, hsite]
    · rw [if_neg hc, if_neg hc, Option.map_none, Option.getD_none]
  | par c => rw [assumeAfter, Command.yieldSite?, assumptionsBehind, Option.map_some,
      Option.getD_some, hsite]
  | _ => rfl

/-! ## Taking the assumptions away -/

theorem withoutBehind_flatMap (cs : List Command) :
    p.withoutBehind yielding scope
      (cs.flatMap fun c => c :: p.assumptionsBehind yielding scope c) = cs := by
  induction cs with
  | nil => rw [List.flatMap_nil, withoutBehind]
  | cons c cs ih => rw [List.flatMap_cons, List.cons_append, withoutBehind, List.drop_left, ih]

end Permissions

namespace Implementation

variable (i : Implementation) (p : Permissions) (copies : Copies) (yielding : List String)

/-- Takes away what is assumed at the heads of loop headers and behind commands. -/
def withoutDisjointness : Implementation :=
  { i with
    blocks := i.blocks.map fun b =>
      let assumed :=
        if b.label ∈ i.flow.loopHeaders then p.assumptionsAt i.vars (copies.headSite i.name b.label)
        else []
      { b with commands := p.withoutBehind yielding i.vars (b.commands.drop assumed.length) } }

/-- **The flow graph stays**, as labels and jumps do. -/
theorem flow_withDisjointness : (i.withDisjointness p copies yielding).flow = i.flow := by
  have h := i.forall₂_withDisjointness p copies yielding
  refine FlowGraph.ofBlocks_congr (labels_withDisjointness p copies yielding) ?_
  generalize (i.withDisjointness p copies yielding).blocks = cs, i.blocks = bs at h
  induction h with
  | nil => rfl
  | cons hb _ ih => rw [List.map_cons, List.map_cons, ih, Block.successors, hb.transfer]; rfl

theorem flow_assumeAfterCalls : (i.assumeAfterCalls p yielding).flow = i.flow := by
  refine FlowGraph.ofBlocks_congr ?_ ?_
  · rw [assumeAfterCalls, List.map_map]
    rfl
  · rw [assumeAfterCalls, List.map_map]
    rfl

theorem headAssumptions_eq (label : String) : i.headAssumptions p copies yielding label =
    if label ∈ i.flow.loopHeaders then p.assumptionsAt i.vars (copies.headSite i.name label)
    else [] := by
  rw [headAssumptions, flow_assumeAfterCalls, p.assumeDisjoint_eq]

theorem blocks_withDisjointness_eq (hn : i.labels.Nodup) :
    (i.withDisjointness p copies yielding).blocks = i.blocks.map fun b =>
      { b with
        commands :=
          (if b.label ∈ i.flow.loopHeaders then
            p.assumptionsAt i.vars (copies.headSite i.name b.label)
          else []) ++ b.commands.flatMap fun c => c :: p.assumptionsBehind yielding i.vars c } := by
  have hafter : p.assumeAfter yielding i.vars =
      fun c => c :: p.assumptionsBehind yielding i.vars c :=
    funext fun c => p.assumeAfter_eq_cons yielding i.vars c
  simp only [i.blocks_withDisjointness p copies yielding hn, assumedCommands, headAssumptions_eq,
    hafter]

/-- **What is assumed can be taken away again.** -/
theorem withoutDisjointness_withDisjointness (hn : i.labels.Nodup) :
    (i.withDisjointness p copies yielding).withoutDisjointness p copies yielding = i := by
  have heq := i.withDisjointness_eq p copies yielding
  have hvars : (i.withDisjointness p copies yielding).vars = i.vars := by rw [heq]; rfl
  have hname : (i.withDisjointness p copies yielding).name = i.name := by rw [heq]
  rw [withoutDisjointness, flow_withDisjointness, hvars, hname,
    i.blocks_withDisjointness_eq p copies yielding hn, List.map_map, heq]
  refine congrArg (fun bs => { i with blocks := bs }) ?_
  refine (List.map_congr_left fun b _ => ?_).trans i.blocks.map_id
  -- the head goes first, then what stands behind the commands
  simp only [Function.comp_apply, List.drop_left, Permissions.withoutBehind_flatMap, id]

/-- **Disjointness is assumed exactly where it belongs.** Each block keeps its label, its jumps and
its commands in their order, and nothing but the blocks changes.  Directly behind each parallel call
and each call of a yielding procedure comes what is assumed at the site of the command, and at the
head of each loop header what is assumed at the site of the block that it comes from.  Taking that
away gives the implementation back.  Loop headers are the blocks that a reachable block which they
dominate jumps to; they are the same before and after. -/
theorem disjointness_exact (hn : i.labels.Nodup) :
    i.withDisjointness p copies yielding =
      { i with
        blocks := i.blocks.map fun b =>
          { b with
            commands :=
              (if b.label ∈ i.flow.loopHeaders then
                p.assumptionsAt i.vars (copies.headSite i.name b.label)
              else []) ++
                b.commands.flatMap fun c => c :: p.assumptionsBehind yielding i.vars c } } ∧
      (i.withDisjointness p copies yielding).withoutDisjointness p copies yielding = i ∧
      (i.withDisjointness p copies yielding).flow.loopHeaders = i.flow.loopHeaders ∧
      ∀ l, l ∈ i.flow.loopHeaders ↔ ∃ s, i.Reachable s ∧ i.Edge s l ∧ i.Dominates l s := by
  refine ⟨?_, i.withoutDisjointness_withDisjointness p copies yielding hn,
    by rw [flow_withDisjointness], fun l => FlowGraph.mem_loopHeaders_iff_dominates hn⟩
  rw [← i.blocks_withDisjointness_eq p copies yielding hn]
  exact i.withDisjointness_eq p copies yielding

end Implementation

namespace Counter

def guardedCalls : Block where
  label := "A"
  commands := [.call { id := 1, callee := "W" }, .havoc ["n"], .par { id := 2, calls := [] }]
  transfer := .goto ["H"]

def guardedLoop : Block where
  label := "H"
  transfer := .goto ["H"]

/-- A call of a yielding procedure and a parallel call in front of a loop. -/
def guarded : Implementation where
  name := "P_1"
  procedure := "P_1"
  inputs := [{ name := "u", type := .int, domain? := some "tid" },
    { name := "v", type := .int, domain? := some "tid" }, { name := "n", type := .int }]
  blocks := [guardedCalls, guardedLoop]

/-- Both linear variables are available behind the call and at the loop, one behind the parallel
call. -/
def guardedPermissions : Permissions where
  domains := Table.ofList [("tid", ⟨"tid", .int⟩)]
  recorded := Table.ofList [(.command 1, ["v", "u"]), (.command 2, ["u"]),
    (.loopHead ⟨"P", "H"⟩, ["u", "v", "n"])]

def guardedCopies : Copies where
  blocks := Table.ofList [(⟨"P_1", "H"⟩, ⟨"P", "H"⟩)]

def tidDisjoint : Command :=
  .assume (.app "tid_disjoint" [.app "tid_collect" [.var "u"], .app "tid_collect" [.var "v"]])

theorem disjointness_exact_guarded :
    guarded.labels.Nodup ∧
      (guarded.withDisjointness guardedPermissions guardedCopies ["W"]).blocks = [
        { guardedCalls with
          commands := [.call { id := 1, callee := "W" }, tidDisjoint, .havoc ["n"],
            .par { id := 2, calls := [] }] },
        { guardedLoop with commands := [tidDisjoint] }] := by
  have hn : guarded.labels.Nodup := by decide
  obtain ⟨heq, -, -, hheader⟩ :=
    guarded.disjointness_exact guardedPermissions guardedCopies ["W"] hn
  have hH : "H" ∈ guarded.flow.loopHeaders :=
    (hheader "H").mpr ⟨"H", ⟨"A", rfl, .single (by decide)⟩, by decide, fun e _ => .refl "H"⟩
  have hA : "A" ∉ guarded.flow.loopHeaders := by
    intro h
    obtain ⟨s, -, hs, -⟩ := (hheader "A").mp h
    obtain ⟨b, hb, -, ht⟩ := hs
    revert ht
    revert b
    decide
  refine ⟨hn, ?_⟩
  have hblocks : guarded.blocks = [guardedCalls, guardedLoop] := rfl
  rw [heq]
  simp only [hblocks, List.map_cons, List.map_nil]
  rw [if_neg (show guardedCalls.label ∉ _ from hA), if_pos (show guardedLoop.label ∈ _ from hH)]
  rfl

end Counter

end LayerCheck
