import LayerCheck.Proofs.Expr.Subst
import LayerCheck.Proofs.Lists
import Mathlib.Data.List.Lex

/-!
# Occurrences of variables

Where variables stand in an expression, and which of them a substitution leaves.  A place is the
path that leads to it down the parts of an expression, and places are ordered from left to right.
Free variables are those that stand at a place which no quantifier around it binds, in the order of
the first such place.  After a substitution the free occurrences are, one after the other, those of
the expressions that stand for the free occurrences before it: what is bound afterwards was bound
before, and what a replacement brings along stays free.

* `Expr.occurrences_replace`: the free occurrences after a replacement.
* `Expr.FreeAt`: a variable stands at a place, and nothing around the place binds it.
* `Expr.exists_places`: the free occurrences with their places, from left to right.
* `Expr.freeVars_exact`: what the free variables of an expression are.
-/

namespace LayerCheck

/-! ## Free occurrences after a replacement -/

namespace Replacement

variable {r : Replacement} {vars : List Variable} {body : Expr} {b : Bool} {x y : String}

/-- What is free below a quantifier with new names and not bound by them. -/
theorem filter_occurrences_image_under (hx : x ∈ body.freeVars) :
    ((r.under vars body).image b x).occurrences.filter
        (· ∉ (r.binders vars body).map Variable.name) =
      if x ∉ vars.map Variable.name then (r.image b x).occurrences else [] := by
  by_cases hv : x ∈ vars.map Variable.name
  · have hb : r.binderName vars body x ∈ (r.binders vars body).map Variable.name := by
      rw [map_name_binders]
      exact List.mem_map_of_mem hv
    rw [image_under_of_mem hv, if_neg (not_not_intro hv), Expr.occurrences,
      List.filter_cons_of_neg (by simpa using hb), List.filter_nil]
  · rw [image_under_of_notMem hv, if_pos hv, List.filter_eq_self]
    intro y hy
    simpa using notMem_binders hx hv hy

end Replacement

namespace Expr

mutual

/-- **A replacement puts occurrences in the place of occurrences.** -/
theorem occurrences_replace (e : Expr) {r : Replacement} (hp : r.past? = none) (b : Bool) :
    (e.replace r b).occurrences = e.occurrences.flatMap fun x => (r.image b x).occurrences := by
  cases e with
  | bool c => rfl
  | int n => rfl
  | var x => rw [replace, occurrences, List.flatMap_singleton, Replacement.image]
  | old e =>
    rw [replace, hp, if_neg (by decide), occurrences, occurrences, e.occurrences_replace hp b]
  | not e => rw [replace, occurrences, occurrences, e.occurrences_replace hp b]
  | binary op l k =>
    rw [replace, occurrences, occurrences, l.occurrences_replace hp b, k.occurrences_replace hp b,
      List.flatMap_append]
  | app f args => rw [replace, occurrences, occurrences, occurrencesOfList_replaceList args hp b]
  | quant q vars body =>
    have hunder : (r.under vars body).past? = none := by
      have h := Replacement.isSome_past?_under r vars body
      rwa [hp, Option.isSome_none, Option.isSome_eq_false_iff, Option.isNone_iff_eq_none] at h
    rw [replace, occurrences, occurrences, body.occurrences_replace hunder b]
    refine List.filter_flatMap_eq fun x hx => ?_
    rw [Replacement.filter_occurrences_image_under (mem_freeVars.mpr hx)]
    simp only [decide_eq_true_eq]

theorem occurrencesOfList_replaceList (es : List Expr) {r : Replacement} (hp : r.past? = none)
    (b : Bool) : occurrencesOfList (replaceList r b es) =
      (occurrencesOfList es).flatMap fun x => (r.image b x).occurrences := by
  cases es with
  | nil => rfl
  | cons e es =>
    rw [replaceList, occurrencesOfList, occurrencesOfList, e.occurrences_replace hp b,
      occurrencesOfList_replaceList es hp b, List.flatMap_append]

end

/-- **The variables that are free after a substitution are those of what stands for the variables
that were.** -/
theorem mem_freeVars_subst_iff {e : Expr} {s : Subst} {x : String} :
    x ∈ (e.subst s).freeVars ↔
      ∃ y ∈ e.freeVars, x ∈ ((s.get? y).map freeVars).getD [y] := by
  have himage : ∀ y, x ∈ (Replacement.image { current := s } false y).occurrences ↔
      x ∈ ((s.get? y).map freeVars).getD [y] := by
    intro y
    rw [Replacement.image, Replacement.get?, if_neg (by decide)]
    cases s.get? y with
    | none => rfl
    | some e => exact mem_freeVars.symm
  rw [mem_freeVars, subst, e.occurrences_replace rfl, List.mem_flatMap]
  simp only [himage, mem_freeVars]

/-! ## Places -/

/-- The expressions right below the outermost operator, from left to right. -/
def parts : Expr → List Expr
  | .bool _ | .int _ | .var _ => []
  | .old e => [e]
  | .not e => [e]
  | .binary _ a b => [a, b]
  | .app _ args => args
  | .quant _ _ body => [body]

/-- The names that the expression binds in its parts. -/
def bound : Expr → List String
  | .quant _ vars _ => vars.map Variable.name
  | _ => []

/-- The path, of positions in lists of parts, leads to the variable `x`, and no quantifier on the
way binds it. -/
inductive FreeAt : Expr → List Nat → String → Prop
  | here (x : String) : FreeAt (.var x) [] x
  | part {e c : Expr} {n : Nat} {path : List Nat} {x : String} (hc : e.parts[n]? = some c)
    (hx : x ∉ e.bound) (h : FreeAt c path x) : FreeAt e (n :: path) x

theorem sizeOf_lt_of_mem_parts {e c : Expr} (h : c ∈ e.parts) : sizeOf c < sizeOf e := by
  cases e with
  | bool b => cases h
  | int n => cases h
  | var x => cases h
  | old e =>
    obtain rfl := List.mem_singleton.mp h
    rw [old.sizeOf_spec]
    omega
  | not e =>
    obtain rfl := List.mem_singleton.mp h
    rw [not.sizeOf_spec]
    omega
  | binary op a b =>
    rw [binary.sizeOf_spec]
    rcases List.mem_pair.mp h with rfl | rfl
    · omega
    · omega
  | app f args =>
    have hlt := List.sizeOf_lt_of_mem (show c ∈ args from h)
    rw [app.sizeOf_spec]
    omega
  | quant q vars body =>
    obtain rfl := List.mem_singleton.mp h
    rw [quant.sizeOf_spec]
    omega

theorem occurrencesOfList_eq (es : List Expr) : occurrencesOfList es = es.flatMap occurrences := by
  induction es with
  | nil => rfl
  | cons e es ih => rw [occurrencesOfList, ih, List.flatMap_cons]

/-- What occurs free in the parts and is not bound is what occurs free. -/
theorem occurrences_eq_parts {e : Expr} (h : ∀ x, e ≠ .var x) :
    e.occurrences = (e.parts.flatMap occurrences).filter (· ∉ e.bound) := by
  cases e with
  | var x => exact absurd rfl (h x)
  | app f args => simp [occurrences, parts, bound, occurrencesOfList_eq]
  | quant q vars body => simp [occurrences, parts, bound]
  | _ => simp [occurrences, parts, bound]

/-- The free occurrences of variables with their places, from left to right. -/
structure Places (e : Expr) (ps : List (List Nat × String)) : Prop where
  names : ps.map Prod.snd = e.occurrences
  sorted : ps.Pairwise (·.1 < ·.1)
  mem_iff (path : List Nat) (x : String) : (path, x) ∈ ps ↔ e.FreeAt path x

/-- The same for several expressions, of which the first is reached by `n`. -/
structure PlacesFrom (n : Nat) (es : List Expr) (ps : List (List Nat × String)) : Prop where
  names : ps.map Prod.snd = es.flatMap occurrences
  sorted : ps.Pairwise (·.1 < ·.1)
  mem_iff (path : List Nat) (x : String) : (path, x) ∈ ps ↔
    ∃ k c rest, path = (n + k) :: rest ∧ es[k]? = some c ∧ c.FreeAt rest x

theorem placesFrom_nil (n : Nat) : PlacesFrom n [] [] where
  names := rfl
  sorted := .nil
  mem_iff path x := by simp

theorem PlacesFrom.cons {n : Nat} {c : Expr} {es : List Expr} {ps qs : List (List Nat × String)}
    (hp : c.Places ps) (hq : PlacesFrom (n + 1) es qs) :
    PlacesFrom n (c :: es) (ps.map (fun p => (n :: p.1, p.2)) ++ qs) where
  names := by
    rw [List.map_append, List.map_map, hq.names, List.flatMap_cons, ← hp.names]
    rfl
  sorted := by
    refine List.pairwise_append.mpr ⟨?_, hq.sorted, ?_⟩
    · rw [List.pairwise_map]
      exact hp.sorted.imp fun h => List.cons_lt_cons_iff.mpr (.inr ⟨rfl, h⟩)
    · intro p hpm q hqm
      obtain ⟨p, -, rfl⟩ := List.mem_map.mp hpm
      obtain ⟨path, x⟩ := q
      obtain ⟨k, d, rest, rfl, -, -⟩ := (hq.mem_iff path x).mp hqm
      exact List.cons_lt_cons_iff.mpr (.inl (by omega))
  mem_iff path x := by
    rw [List.mem_append, List.mem_map, hq.mem_iff]
    constructor
    · intro h
      rcases h with ⟨⟨rest, y⟩, hm, he⟩ | ⟨k, d, rest, rfl, hd, hf⟩
      · obtain ⟨rfl, rfl⟩ := Prod.mk.inj he
        exact ⟨0, c, rest, rfl, rfl, (hp.mem_iff rest y).mp hm⟩
      · exact ⟨k + 1, d, rest, by rw [Nat.add_right_comm, Nat.add_assoc], hd, hf⟩
    · intro h
      obtain ⟨k, d, rest, rfl, hd, hf⟩ := h
      cases k with
      | zero =>
        obtain rfl : c = d := Option.some_inj.mp hd
        exact .inl ⟨(rest, x), (hp.mem_iff rest x).mpr hf, rfl⟩
      | succ k =>
        exact .inr ⟨k, d, rest, by rw [Nat.add_right_comm, Nat.add_assoc], hd, hf⟩

theorem exists_placesFrom (n : Nat) {es : List Expr} (h : ∀ e ∈ es, ∃ ps, e.Places ps) :
    ∃ ps, PlacesFrom n es ps := by
  induction es generalizing n with
  | nil => exact ⟨[], placesFrom_nil n⟩
  | cons e es ih =>
    rw [List.forall_mem_cons] at h
    obtain ⟨ps, hp⟩ := h.1
    obtain ⟨qs, hq⟩ := ih (n + 1) h.2
    exact ⟨_, .cons hp hq⟩

/-- What an expression binds is taken from the places in its parts. -/
theorem PlacesFrom.places {e : Expr} {ps : List (List Nat × String)} (h : PlacesFrom 0 e.parts ps)
    (hv : ∀ x, e ≠ .var x) : e.Places (ps.filter (·.2 ∉ e.bound)) where
  names := by
    rw [occurrences_eq_parts hv, ← h.names, List.filter_map]
    rfl
  sorted := h.sorted.filter _
  mem_iff path x := by
    rw [List.mem_filter, h.mem_iff]
    constructor
    · rintro ⟨⟨k, c, rest, rfl, hc, hf⟩, hb⟩
      rw [Nat.zero_add]
      exact .part hc (by simpa using hb) hf
    · intro hf
      cases hf with
      | here => exact absurd rfl (hv x)
      | @part _ c n rest _ hc hx hf =>
        exact ⟨⟨n, c, rest, by rw [Nat.zero_add], hc, hf⟩, by simpa using hx⟩

theorem places_var (x : String) : (Expr.var x).Places [([], x)] where
  names := rfl
  sorted := List.pairwise_singleton _ _
  mem_iff path y := by
    rw [List.mem_singleton]
    constructor
    · intro h
      obtain ⟨rfl, rfl⟩ := Prod.mk.inj h
      exact .here y
    · intro h
      cases h with
      | here => rfl
      | part hc _ _ => cases hc

/-- **The list of free occurrences goes through their places from left to right.** -/
theorem exists_places (e : Expr) : ∃ ps, e.Places ps := by
  by_cases hv : ∃ x, e = .var x
  · obtain ⟨x, rfl⟩ := hv
    exact ⟨_, places_var x⟩
  · obtain ⟨ps, hp⟩ := exists_placesFrom 0 fun c (hc : c ∈ e.parts) => exists_places c
    exact ⟨_, hp.places fun x hx => hv ⟨x, hx⟩⟩
termination_by sizeOf e
decreasing_by exact sizeOf_lt_of_mem_parts hc

/-! ## The free variables -/

theorem nodup_freeVars (e : Expr) : e.freeVars.Nodup := List.nodup_eraseDups _

theorem mem_freeVars_iff_freeAt {e : Expr} {x : String} :
    x ∈ e.freeVars ↔ ∃ path, e.FreeAt path x := by
  obtain ⟨ps, hp⟩ := e.exists_places
  rw [mem_freeVars, ← hp.names, List.mem_map]
  constructor
  · rintro ⟨⟨path, y⟩, hm, rfl⟩
    exact ⟨path, (hp.mem_iff path y).mp hm⟩
  · rintro ⟨path, hf⟩
    exact ⟨(path, x), (hp.mem_iff path x).mpr hf, rfl⟩

/-- A free variable stands in front of another if one of its places is left of all of the other. -/
theorem pairwise_freeVars (e : Expr) : e.freeVars.Pairwise fun x y =>
    ∃ path, e.FreeAt path x ∧ ∀ other, e.FreeAt other y → path < other := by
  obtain ⟨ps, hp⟩ := e.exists_places
  refine (List.pairwise_eraseDups e.occurrences).imp ?_
  rintro x y ⟨before, after, hsplit, hy, hne⟩
  rw [← hp.names] at hsplit
  obtain ⟨qs, rest, rfl, rfl, hrest⟩ := List.map_eq_append_iff.mp hsplit
  obtain ⟨⟨path, z⟩, rs, rfl, rfl, rfl⟩ := List.map_eq_cons_iff.mp hrest
  refine ⟨path, (hp.mem_iff path z).mp (List.mem_append_right _ List.mem_cons_self), ?_⟩
  intro other ho
  -- Of the three parts of the list, only the last can hold a place of `y`.
  have hlater : (other, y) ∈ rs := by
    rcases List.mem_append.mp ((hp.mem_iff other y).mpr ho) with h | h
    · exact absurd (List.mem_map_of_mem h) hy
    · rcases List.mem_cons.mp h with h | h
      · exact absurd (Prod.mk.inj h).2 hne
      · exact h
  exact List.rel_of_pairwise_cons (List.pairwise_append.mp hp.sorted).2.1 hlater

/-- **The free variables are exact.** After a substitution they are those of the replacements, and
the variables without one.  They are listed once each, in the order of their first free places, and
are all that has a free place; so the value of the expression depends on nothing else in the two
states. -/
theorem freeVars_exact (e : Expr) :
    (∀ (s : Subst) (x : String), x ∈ (e.subst s).freeVars ↔
      ∃ y ∈ e.freeVars, x ∈ ((s.get? y).map freeVars).getD [y]) ∧
    e.freeVars.Nodup ∧
    (∀ x, x ∈ e.freeVars ↔ ∃ path, e.FreeAt path x) ∧
    (e.freeVars.Pairwise fun x y =>
      ∃ path, e.FreeAt path x ∧ ∀ other, e.FreeAt other y → path < other) ∧
    ∀ (M : Interpretation) (cur cur' pre pre' : M.State),
      (∀ x ∈ e.freeVars, cur x = cur' x ∧ pre x = pre' x) →
        e.eval cur pre = e.eval cur' pre' := by
  refine ⟨fun s x => mem_freeVars_subst_iff, e.nodup_freeVars, fun x => mem_freeVars_iff_freeAt,
    e.pairwise_freeVars, fun M cur cur' pre pre' h => ?_⟩
  exact e.eval_congr (fun x hx => (h x (mem_freeVars.mpr hx)).1)
    (fun x hx => (h x (mem_freeVars.mpr hx)).2)

end Expr

namespace Counter

/-- The variable `x` is bound at its first place and free at its second. -/
def halfBound : Expr :=
  .and (.quant .all [{ name := "x", type := .int }] (.binary .lt (.var "x") (.var "y")))
    (.binary .lt (.var "x") (.old (.var "z")))

def zeros : model.State := fun _ => .inr 0

/-- What `halfBound` does not mention makes no difference to it. -/
theorem freeVars_exact_halfBound :
    halfBound.freeVars = ["y", "x", "z"] ∧
      "x" ∈ (halfBound.subst (Table.ofList [("y", .var "x")])).freeVars ∧
      (∀ v ∈ halfBound.freeVars,
        zeros v = Function.update zeros "w" (.inr 1) v ∧ zeros v = zeros v) ∧
      halfBound.eval zeros zeros = halfBound.eval (Function.update zeros "w" (.inr 1)) zeros := by
  obtain ⟨hsubst, -, -, -, heval⟩ := halfBound.freeVars_exact
  have hlist : halfBound.freeVars = ["y", "x", "z"] := by decide
  have hagree : ∀ v ∈ halfBound.freeVars,
      zeros v = Function.update zeros "w" (.inr 1) v ∧ zeros v = zeros v := by
    intro v hv
    have hw : v ≠ "w" := by
      rintro rfl
      rw [hlist] at hv
      revert hv
      decide
    exact ⟨(Function.update_of_ne hw _ _).symm, rfl⟩
  exact ⟨hlist, (hsubst _ "x").mpr ⟨"y", by decide, by decide⟩, hagree,
    heval model zeros _ zeros zeros hagree⟩

end Counter

end LayerCheck
