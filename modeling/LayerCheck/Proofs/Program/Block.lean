import LayerCheck.Program.Basic
import Mathlib.Data.List.Forall2
import Mathlib.Data.List.Nodup

/-!
# Editing blocks

If labels are distinct, changing the first block with a label is changing every block with it, and
a series of such changes is one pass over the blocks.  Adding targets to a jump keeps what is there
and adds each of them at most once.

* `Block.foldl_modifyFirst`: a series of changes as a `map`.
* `Transfer.addAll`: adds several targets, and what that makes of each label.
-/

namespace LayerCheck

namespace Block

theorem modifyFirst_eq_self {l : String} {bs : List Block} (h : l ∉ bs.map label)
    (f : Block → Block) : modifyFirst l f bs = bs := by
  induction bs with
  | nil => rfl
  | cons b bs ih =>
    rw [List.map_cons, List.mem_cons, not_or] at h
    rw [modifyFirst, if_neg (Ne.symm h.1), ih h.2]

theorem modifyFirst_eq_map {bs : List Block} (hn : (bs.map label).Nodup) (l : String)
    (f : Block → Block) :
    modifyFirst l f bs = bs.map fun b => if b.label = l then f b else b := by
  induction bs with
  | nil => rfl
  | cons b bs ih =>
    rw [List.map_cons, List.nodup_cons] at hn
    rw [modifyFirst, List.map_cons]
    by_cases hb : b.label = l
    · have hl : l ∉ bs.map label := hb ▸ hn.1
      rw [if_pos hb, if_pos hb, ← ih hn.2, modifyFirst_eq_self hl f]
    · rw [if_neg hb, if_neg hb, ih hn.2]

/-- Changing a block keeps what the blocks have in common with others, one by one. -/
theorem forall₂_modifyFirst {α : Type} {R : α → Block → Prop} {l : String} {f : Block → Block}
    (hf : ∀ a b, R a b → R a (f b)) {as : List α} {bs : List Block} (h : List.Forall₂ R as bs) :
    List.Forall₂ R as (modifyFirst l f bs) := by
  induction h with
  | nil => exact .nil
  | cons hr ht ih =>
    rw [modifyFirst]
    split
    · exact .cons (hf _ _ hr) ht
    · exact .cons hr ih

theorem map_label_modifyFirst {l : String} {f : Block → Block} (hf : ∀ b, (f b).label = b.label)
    (bs : List Block) : (modifyFirst l f bs).map label = bs.map label := by
  induction bs with
  | nil => rfl
  | cons b bs ih =>
    rw [modifyFirst]
    split
    · rw [List.map_cons, List.map_cons, hf]
    · rw [List.map_cons, List.map_cons, ih]

/-- **The first block with a label is the one that is changed.** -/
theorem getElem?_modifyFirst (l : String) (f : Block → Block) (bs : List Block) (k : Nat) :
    (modifyFirst l f bs)[k]? =
      bs[k]?.map fun b => if (bs.map label).idxOf? l = some k then f b else b := by
  induction bs generalizing k with
  | nil => rfl
  | cons b bs ih =>
    rw [modifyFirst, List.map_cons, List.idxOf?_cons]
    by_cases hb : b.label = l
    · rw [if_pos hb, if_pos (beq_iff_eq.mpr hb)]
      cases k with
      | zero => simp
      | succ k => simp
    · rw [if_neg hb, if_neg (by simpa using hb)]
      cases k with
      | zero => simp
      | succ k => simp [ih]

/-- The first block with a label stands at the first position of the label. -/
theorem find?_label_eq (l : String) (bs : List Block) :
    bs.find? (·.label == l) = ((bs.map label).idxOf? l).bind (bs[·]?) := by
  induction bs with
  | nil => rfl
  | cons b bs ih =>
    rw [List.find?_cons, List.map_cons, List.idxOf?_cons]
    cases hb : b.label == l with
    | true => rfl
    | false =>
      rw [ih]
      cases (bs.map label).idxOf? l <;> rfl

theorem map_label_map {f : Block → Block} (hf : ∀ b, (f b).label = b.label) (bs : List Block) :
    (bs.map f).map label = bs.map label := by
  rw [List.map_map]
  exact List.map_congr_left fun b _ => hf b

/-- **Changing the blocks with some labels, one label after the other, is one pass.** -/
theorem foldl_modifyFirst {bs : List Block} (hn : (bs.map label).Nodup) {ls : List String}
    (hl : ls.Nodup) {f : String → Block → Block} (hf : ∀ l b, (f l b).label = b.label) :
    ls.foldl (fun bs l => modifyFirst l (f l) bs) bs =
      bs.map fun b => if b.label ∈ ls then f b.label b else b := by
  induction ls generalizing bs with
  | nil => simp
  | cons l ls ih =>
    rw [List.nodup_cons] at hl
    have hfl : ∀ b : Block, (if b.label = l then f l b else b).label = b.label := by
      intro b
      split
      · exact hf l b
      · rfl
    rw [List.foldl_cons, modifyFirst_eq_map hn, ih (by rw [map_label_map hfl]; exact hn) hl.2,
      List.map_map]
    apply List.map_congr_left
    intro b _
    rw [Function.comp_apply, hfl]
    by_cases hb : b.label = l
    · rw [if_pos hb, if_neg (hb ▸ hl.1), if_pos (List.mem_cons.mpr (.inl hb)), hb]
    · simp only [hb, if_false, List.mem_cons, false_or]

end Block

namespace Transfer

/-! ## Adding targets -/

/-- Adds all targets that are not there yet. -/
def addAll (t : Transfer) (ls : List String) : Transfer := ls.foldl add t

@[simp] theorem addAll_nil (t : Transfer) : t.addAll [] = t := rfl

theorem addAll_append (t : Transfer) (ls ms : List String) :
    t.addAll (ls ++ ms) = (t.addAll ls).addAll ms :=
  List.foldl_append

theorem addAll_cons (t : Transfer) (l : String) (ls : List String) :
    t.addAll (l :: ls) = (t.add l).addAll ls := rfl

theorem isReturn_add (t : Transfer) (l : String) : (t.add l).isReturn = false := by
  cases t with
  | ret => rfl
  | goto ts =>
    rw [add]
    split <;> rfl

theorem isReturn_addAll {t : Transfer} (ht : t.isReturn = false) (ls : List String) :
    (t.addAll ls).isReturn = false := by
  induction ls generalizing t with
  | nil => exact ht
  | cons l ls ih => exact ih (isReturn_add t l)

theorem count_add (t : Transfer) (l x : String) :
    (t.add l).targets.count x =
      if x = l ∧ x ∉ t.targets then 1 else t.targets.count x := by
  cases t with
  | ret =>
    by_cases hx : x = l
    · simp [add, targets, hx]
    · simp [add, targets, hx, Ne.symm hx]
  | goto ts =>
    by_cases hl : l ∈ ts
    · rw [add, if_pos hl, if_neg]
      intro he
      obtain ⟨rfl, h⟩ := he
      exact h hl
    · by_cases hx : x = l
      · subst hx
        simp [add, targets, hl, List.count_eq_zero_of_not_mem hl]
      · simp [add, targets, hl, hx, Ne.symm hx]

theorem mem_add {t : Transfer} {l x : String} :
    x ∈ (t.add l).targets ↔ x ∈ t.targets ∨ x = l := by
  cases t with
  | ret => simp [add, targets]
  | goto ts =>
    by_cases hl : l ∈ ts
    · rw [add, if_pos hl]
      exact ⟨.inl, fun h => h.elim id fun e => e ▸ hl⟩
    · simp [add, targets, hl]

theorem mem_addAll {t : Transfer} {ls : List String} {x : String} :
    x ∈ (t.addAll ls).targets ↔ x ∈ t.targets ∨ x ∈ ls := by
  induction ls generalizing t with
  | nil => simp
  | cons l ls ih => rw [addAll_cons, ih, mem_add, List.mem_cons, or_assoc]

/-- **An added target that was not there is there once, all other targets are as they were.** -/
theorem count_addAll (t : Transfer) (ls : List String) (x : String) :
    (t.addAll ls).targets.count x =
      if x ∈ ls ∧ x ∉ t.targets then 1 else t.targets.count x := by
  induction ls generalizing t with
  | nil => simp
  | cons l ls ih =>
    simp only [addAll_cons, ih, mem_add, count_add, List.mem_cons]
    by_cases hx : x ∈ t.targets
    · simp [hx]
    · by_cases hl : x = l
      · simp [hl]
      · simp [hx, hl]

theorem filter_add {p : String → Bool} {l : String} (hl : p l = false) (t : Transfer) :
    (t.add l).targets.filter p = t.targets.filter p := by
  cases t with
  | ret => simp [add, targets, hl]
  | goto ts =>
    rw [add]
    split
    · rfl
    · simp [targets, hl]

/-- Leaving out what was added leaves what was there. -/
theorem filter_addAll {p : String → Bool} {ls : List String} (hl : ∀ l ∈ ls, p l = false)
    (t : Transfer) : (t.addAll ls).targets.filter p = t.targets.filter p := by
  induction ls generalizing t with
  | nil => rfl
  | cons l ls ih =>
    rw [addAll_cons, ih fun m hm => hl m (List.mem_cons_of_mem _ hm)]
    exact filter_add (hl l List.mem_cons_self) t

theorem filterMap_add {α : Type} {f : String → Option α} {l : String} (hl : f l = none)
    (t : Transfer) : (t.add l).targets.filterMap f = t.targets.filterMap f := by
  cases t with
  | ret => simp [add, targets, hl]
  | goto ts =>
    rw [add]
    split
    · rfl
    · simp [targets, hl]

theorem filterMap_addAll {α : Type} {f : String → Option α} {ls : List String}
    (hl : ∀ l ∈ ls, f l = none) (t : Transfer) :
    (t.addAll ls).targets.filterMap f = t.targets.filterMap f := by
  induction ls generalizing t with
  | nil => rfl
  | cons l ls ih =>
    rw [addAll_cons, ih fun m hm => hl m (List.mem_cons_of_mem _ hm)]
    exact filterMap_add (hl l List.mem_cons_self) t

end Transfer

end LayerCheck
