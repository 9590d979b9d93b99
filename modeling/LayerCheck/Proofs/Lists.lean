import Mathlib.Data.List.Forall2
import Mathlib.Data.List.Nodup
import Mathlib.Data.List.Pairwise

/-!
# Lists

Lists without repetitions, and what two lists say about each other if their elements are related one
by one.
-/

theorem List.nodup_eraseDups {α : Type} [BEq α] [LawfulBEq α] (l : List α) : l.eraseDups.Nodup := by
  induction hn : l.length using Nat.strongRecOn generalizing l with
  | ind n ih =>
    cases l with
    | nil => exact nodup_nil
    | cons a l =>
      rw [eraseDups_cons, nodup_cons, mem_eraseDups]
      refine ⟨by simp, ih _ ?_ _ rfl⟩
      rw [← hn, length_cons]
      exact Nat.lt_succ_of_le (length_filter_le _ _)

theorem List.Nodup.eraseDups_eq {α : Type} [BEq α] [LawfulBEq α] {l : List α} (h : l.Nodup) :
    l.eraseDups = l := by
  induction l with
  | nil => rfl
  | cons a l ih =>
    rw [nodup_cons] at h
    have hfilter : l.filter (fun b => !b == a) = l := by
      refine filter_eq_self.mpr fun b hb => ?_
      simpa using fun he : b = a => h.1 (he ▸ hb)
    rw [eraseDups_cons, hfilter, ih h.2]

theorem List.map_eraseDups {α β : Type} [BEq α] [LawfulBEq α] [BEq β] [LawfulBEq β] {f : α → β}
    (hf : Function.Injective f) (l : List α) : (l.map f).eraseDups = l.eraseDups.map f := by
  induction hn : l.length using Nat.strongRecOn generalizing l with
  | ind n ih =>
    cases l with
    | nil => rfl
    | cons a l =>
      have hfilter : (l.map f).filter (fun b => !b == f a) = (l.filter fun b => !b == a).map f := by
        rw [filter_map]
        congr 1
        refine filter_congr fun b _ => ?_
        rw [Function.comp_apply, hf.beq_eq]
      rw [map_cons, eraseDups_cons, eraseDups_cons, map_cons, hfilter, ih _ ?_ _ rfl]
      rw [← hn, length_cons]
      exact Nat.lt_succ_of_le (length_filter_le _ _)

theorem List.filter_eraseDups {α : Type} [BEq α] [LawfulBEq α] (p : α → Bool) (l : List α) :
    l.eraseDups.filter p = (l.filter p).eraseDups := by
  induction hn : l.length using Nat.strongRecOn generalizing l with
  | ind n ih =>
    cases l with
    | nil => rfl
    | cons a l =>
      have hlt : (l.filter fun b => !b == a).length < n := by
        rw [← hn, length_cons]
        exact Nat.lt_succ_of_le (length_filter_le _ _)
      rw [eraseDups_cons, filter_cons, ih _ hlt _ rfl]
      by_cases ha : p a = true
      · rw [if_pos ha, filter_cons_of_pos ha, eraseDups_cons, filter_comm]
      · have hfilter : (l.filter fun b => !b == a).filter p = l.filter p := by
          rw [filter_filter]
          refine filter_congr fun b _ => ?_
          by_cases hb : p b = true
          · have hne : b ≠ a := fun he => ha (he ▸ hb)
            simp [hb, hne]
          · simp [hb]
        rw [if_neg ha, filter_cons_of_neg ha, hfilter]

/-- Of two elements, the one that comes first in a list comes first when it is left with one of
each. -/
theorem List.pairwise_eraseDups {α : Type} [BEq α] [LawfulBEq α] (l : List α) :
    l.eraseDups.Pairwise fun x y => ∃ before after, l = before ++ x :: after ∧ y ∉ before ∧ y ≠ x := by
  induction hn : l.length using Nat.strongRecOn generalizing l with
  | ind n ih =>
    cases l with
    | nil => exact .nil
    | cons a l =>
      have hlt : (l.filter fun b => !b == a).length < n := by
        rw [← hn, length_cons]
        exact Nat.lt_succ_of_le (length_filter_le _ _)
      have hne : ∀ {y}, y ∈ (l.filter fun b => !b == a).eraseDups → y ≠ a := by
        intro y hy
        rw [mem_eraseDups] at hy
        simpa using of_mem_filter hy
      rw [eraseDups_cons]
      refine .cons (fun y hy => ⟨[], l, rfl, not_mem_nil, hne hy⟩) ?_
      refine (ih _ hlt _ rfl).imp_of_mem fun {x y} _ hy h => ?_
      obtain ⟨before, after, hsplit, hb, hyx⟩ := h
      obtain ⟨before', rest, rfl, rfl, hrest⟩ := filter_eq_append_iff.mp hsplit
      obtain ⟨skipped, after', rfl, hskipped, -, -⟩ := filter_eq_cons_iff.mp hrest
      refine ⟨a :: before' ++ skipped, after', by simp, ?_, hyx⟩
      -- what the filter leaves out in front of `x` is `a`, and `y` is not
      have hya := hne hy
      have hkeep : (!y == a) = true := by simpa using hya
      simp only [cons_append, mem_cons, mem_append, not_or]
      exact ⟨hya, fun h => hb (mem_filter.mpr ⟨h, hkeep⟩), fun h => hskipped y h hkeep⟩

/-- A filter after a map to lists, where it takes all or nothing of what an element gives. -/
theorem List.filter_flatMap_eq {α β : Type} {f g : α → List β} {p : α → Bool} {q : β → Bool}
    {l : List α} (h : ∀ a ∈ l, (f a).filter q = if p a then g a else []) :
    (l.flatMap f).filter q = (l.filter p).flatMap g := by
  induction l with
  | nil => rfl
  | cons a l ih =>
    rw [forall_mem_cons] at h
    rw [flatMap_cons, filter_append, ih h.2, h.1]
    by_cases ha : p a = true
    · rw [if_pos ha, filter_cons_of_pos ha, flatMap_cons]
    · rw [if_neg ha, filter_cons_of_neg ha, nil_append]

/-- What stands in a list once stands at one position. -/
theorem List.eq_of_getElem?_of_count {α : Type} [BEq α] [LawfulBEq α] {l : List α} {x : α}
    (h : l.count x = 1) {m n : Nat} (hm : l[m]? = some x) (hn : l[n]? = some x) : m = n := by
  induction l generalizing m n with
  | nil => simp at hm
  | cons y l ih =>
    -- a first element that is `x` leaves none for the rest
    have hrest : ∀ {k : Nat}, y = x → l[k]? ≠ some x := by
      rintro k rfl hk
      rw [count_cons_self, Nat.add_eq_right, count_eq_zero] at h
      exact h (mem_of_getElem? hk)
    cases m with
    | zero =>
      cases n with
      | zero => rfl
      | succ n => exact absurd hn (hrest (Option.some_inj.mp hm))
    | succ m =>
      cases n with
      | zero => exact absurd hm (hrest (Option.some_inj.mp hn))
      | succ n =>
        have hne : y ≠ x := fun hy => hrest hy hm
        rw [count_cons_of_ne hne] at h
        rw [ih h hm hn]

/-- What stands in only one of several lists tells which one. -/
theorem List.Nodup.eq_of_mem_flatMap {α β : Type} {l : List α} {f : α → List β}
    (h : (l.flatMap f).Nodup) {a b : α} (ha : a ∈ l) (hb : b ∈ l) {x : β} (hxa : x ∈ f a)
    (hxb : x ∈ f b) : a = b := by
  have hsymm : Std.Symm (Function.onFun Disjoint f) := ⟨fun _ _ hd _ ha hb => hd hb ha⟩
  by_contra hne
  exact (nodup_flatMap.mp h).2.forall ha hb hne hxa hxb

/-- If only one element of a list gives anything, it is all that the list gives. -/
theorem List.Nodup.flatMap_eq {α β : Type} {l : List α} (h : l.Nodup) {f : α → List β} {a : α}
    (ha : a ∈ l) (hf : ∀ b ∈ l, b ≠ a → f b = []) : l.flatMap f = f a := by
  induction l with
  | nil => exact absurd ha not_mem_nil
  | cons b l ih =>
    rw [nodup_cons] at h
    rw [forall_mem_cons] at hf
    rw [flatMap_cons]
    rcases mem_cons.mp ha with rfl | ha
    · have hnil : l.flatMap f = [] :=
        flatMap_eq_nil_iff.mpr fun b hb => hf.2 b hb fun he => h.1 (he ▸ hb)
      rw [hnil, append_nil]
    · rw [hf.1 fun he => h.1 (he ▸ ha), nil_append]
      exact ih h.2 ha hf.2

/-- Words without the separator can be read off a text in which each has a separator in front. -/
theorem List.flatMap_cons_injective {α : Type} {x : α} {as bs : List (List α)}
    (ha : ∀ a ∈ as, x ∉ a) (hb : ∀ b ∈ bs, x ∉ b)
    (h : as.flatMap (x :: ·) = bs.flatMap (x :: ·)) : as = bs := by
  -- what follows a word is nothing, or begins with a separator
  have hhead : ∀ {cs : List (List α)} {y : α} {ys : List α},
      cs.flatMap (x :: ·) = y :: ys → y = x := by
    intro cs y ys hc
    cases cs with
    | nil => cases hc
    | cons c cs => exact (List.cons.inj hc).1.symm
  induction as generalizing bs with
  | nil =>
    cases bs with
    | nil => rfl
    | cons b bs => cases h
  | cons a as ih =>
    cases bs with
    | nil => cases h
    | cons b bs =>
      rw [List.forall_mem_cons] at ha hb
      have hab : a ++ as.flatMap (x :: ·) = b ++ bs.flatMap (x :: ·) := (List.cons.inj h).2
      rcases List.append_eq_append_iff.mp hab with ⟨ds, hd, hr⟩ | ⟨ds, hd, hr⟩
      · cases ds with
        | nil =>
          rw [List.append_nil] at hd
          rw [hd, ih ha.2 hb.2 hr]
        | cons d ds =>
          refine absurd ?_ hb.1
          rw [hd, hhead hr]
          exact List.mem_append_right _ List.mem_cons_self
      · cases ds with
        | nil =>
          rw [List.append_nil] at hd
          rw [hd, ih ha.2 hb.2 hr.symm]
        | cons d ds =>
          refine absurd ?_ ha.1
          rw [hd, hhead hr]
          exact List.mem_append_right _ List.mem_cons_self

/-- What stands in front of the first separator can be told from what follows. -/
theorem List.append_cons_inj_of_notMem_left {α : Type} {x : α} {as bs as' bs' : List α}
    (h : x ∉ as) (h' : x ∉ as') :
    as ++ x :: bs = as' ++ x :: bs' ↔ as = as' ∧ bs = bs' := by
  constructor
  · intro he
    induction as generalizing as' with
    | nil =>
      cases as' with
      | nil => exact ⟨rfl, (cons.inj he).2⟩
      | cons a' as' => exact absurd ((cons.inj he).1 ▸ mem_cons_self) h'
    | cons a as ih =>
      cases as' with
      | nil => exact absurd ((cons.inj he).1 ▸ mem_cons_self) h
      | cons a' as' =>
        obtain ⟨rfl, htail⟩ := cons.inj he
        obtain ⟨rfl, rfl⟩ := ih (fun hm => h (mem_cons_of_mem _ hm))
          (fun hm => h' (mem_cons_of_mem _ hm)) htail
        exact ⟨rfl, rfl⟩
  · rintro ⟨rfl, rfl⟩
    rfl

/-- What stands behind the last separator can be told from what comes before. -/
theorem List.append_cons_inj_of_notMem_right {α : Type} {x : α} {as bs as' bs' : List α}
    (h : x ∉ bs) (h' : x ∉ bs') :
    as ++ x :: bs = as' ++ x :: bs' ↔ as = as' ∧ bs = bs' := by
  rw [← reverse_inj]
  simp only [reverse_append, reverse_cons, append_assoc, singleton_append]
  rw [append_cons_inj_of_notMem_left (mt mem_reverse.mp h) (mt mem_reverse.mp h'), reverse_inj,
    reverse_inj, and_comm]

/-- What stands in front of the first element without a property can be told from what follows. -/
theorem List.append_inj_of_all {α : Type} {p : α → Bool} {as bs r r' : List α}
    (ha : ∀ a ∈ as, p a = true) (hb : ∀ b ∈ bs, p b = true) (hr : ∀ c ∈ r.head?, p c = false)
    (hr' : ∀ c ∈ r'.head?, p c = false) (h : as ++ r = bs ++ r') : as = bs ∧ r = r' := by
  have hend : ∀ {l : List α}, (∀ c ∈ l.head?, p c = false) → l.takeWhile p = [] := by
    intro l hl
    cases l with
    | nil => rfl
    | cons c l => rw [takeWhile_cons_of_neg (by simp [hl c rfl])]
  have hab := congrArg (takeWhile p) h
  rw [takeWhile_append_of_pos ha, takeWhile_append_of_pos hb, hend hr, hend hr', append_nil,
    append_nil] at hab
  subst hab
  exact ⟨rfl, append_cancel_left h⟩

/-- If every element is related to something, so is the list. -/
theorem List.exists_forall₂ {α β : Type} {R : α → β → Prop} {as : List α}
    (h : ∀ a ∈ as, ∃ b, R a b) : ∃ bs, Forall₂ R as bs := by
  induction as with
  | nil => exact ⟨[], .nil⟩
  | cons a as ih =>
    rw [forall_mem_cons] at h
    obtain ⟨b, hb⟩ := h.1
    obtain ⟨bs, hbs⟩ := ih h.2
    exact ⟨b :: bs, .cons hb hbs⟩

namespace List.Forall₂

variable {α β : Type} {R : α → β → Prop} {as : List α} {bs : List β}

theorem exists_of_mem_left (h : Forall₂ R as bs) {a : α} (ha : a ∈ as) : ∃ b ∈ bs, R a b := by
  induction h with
  | nil => exact absurd ha not_mem_nil
  | cons hr _ ih =>
    rcases mem_cons.mp ha with rfl | ha
    · exact ⟨_, mem_cons_self, hr⟩
    · obtain ⟨b, hb, hab⟩ := ih ha
      exact ⟨b, mem_cons_of_mem _ hb, hab⟩

theorem exists_of_mem_right (h : Forall₂ R as bs) {b : β} (hb : b ∈ bs) : ∃ a ∈ as, R a b :=
  h.flip.exists_of_mem_left hb

end List.Forall₂
