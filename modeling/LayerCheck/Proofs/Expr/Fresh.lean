import LayerCheck.Expr.Fresh
import LayerCheck.Proofs.Lists
import Mathlib.Data.List.Nodup
import Mathlib.Data.List.Perm.Subperm

/-!
# Fresh names are fresh

A numbered family of different names always has one that is not taken: of `taken.length + 1` of
them one is missing from `taken`.  The search finds the first of these, after at most as many tries
as there are different names in `taken`, and one.

* `Fresh.number_first`: the number that the search finds.
* `Fresh.binder_notMem`: a fresh name is not taken.
* `Fresh.base_eq_of_binder_eq`: fresh names tell what they are made from.
-/

namespace LayerCheck.Fresh

/-- Numbers whose names are all taken are no more than the names. -/
theorem length_le_of_taken {name : Nat → String} (hi : Function.Injective name) {start n : Nat}
    {taken : List String} (h : ∀ i, start ≤ i → i < start + n → name i ∈ taken) :
    n ≤ taken.length := by
  have hn : ((List.range' start n).map name).Nodup := List.Nodup.map hi List.nodup_range'
  have hs : (List.range' start n).map name ⊆ taken := by
    intro x hx
    obtain ⟨i, hi, rfl⟩ := List.mem_map.mp hx
    rw [List.mem_range'_1] at hi
    exact h i hi.1 hi.2
  have hl := (hn.subperm hs).length_le
  rwa [List.length_map, List.length_range'] at hl

/-- **The search finds the first number whose name is not taken**, and it tries at most one number
more than there are different names among those taken. -/
theorem number_first {name : Nat → String} (hi : Function.Injective name) (start : Nat)
    (taken : List String) : start ≤ number name start taken ∧
      name (number name start taken) ∉ taken ∧
      (∀ i, start ≤ i → i < number name start taken → name i ∈ taken) ∧
      number name start taken ≤ start + taken.eraseDups.length := by
  cases hf : (List.range' start (taken.length + 1)).find? fun i => name i ∉ taken with
  | none =>
    -- All candidates would be different names among those taken, but there are too many of them.
    have hall : ∀ i, start ≤ i → i < start + (taken.length + 1) → name i ∈ taken := by
      intro i hs hl
      simpa using List.find?_eq_none.mp hf i (List.mem_range'_1.mpr ⟨hs, hl⟩)
    have hl := length_le_of_taken hi hall
    omega
  | some k =>
    obtain ⟨hk, hmem, hbefore⟩ := List.find?_range'_eq_some.mp hf
    have hstart : start ≤ k := (List.mem_range'_1.mp hmem).1
    have htaken : ∀ i, start ≤ i → i < k → name i ∈ taken := by
      intro i hs hl
      simpa using hbefore i hs hl
    have hdistinct : k - start ≤ taken.eraseDups.length := by
      refine length_le_of_taken hi fun i hs hl => List.mem_eraseDups.mpr (htaken i hs ?_)
      omega
    rw [number, hf, Option.getD_some]
    exact ⟨hstart, by simpa using hk, htaken, by omega⟩

theorem number_notMem {name : Nat → String} (hi : Function.Injective name) (start : Nat)
    (taken : List String) : name (number name start taken) ∉ taken :=
  (number_first hi start taken).2.1

theorem toString_injective : Function.Injective (fun n : Nat => toString n) := by
  intro m n h
  have hd : Nat.toDigits 10 m = Nat.toDigits 10 n := by
    simpa using congrArg String.toList h
  rw [← Nat.ofDigitChars_ten_toDigits (n := m), hd, Nat.ofDigitChars_ten_toDigits]

theorem candidate_injective (base : String) : Function.Injective (binder.candidate base) := by
  intro m n h
  rw [binder.candidate, binder.candidate] at h
  exact toString_injective ((String.append_right_inj (base ++ "#")).mp h)

/-- What is no digit does not occur in a number. -/
theorem notMem_toDigits {c : Char} (hc : c.isDigit = false) (n : Nat) : c ∉ Nat.toDigits 10 n := by
  intro hm
  rw [Nat.isDigit_of_mem_toDigits (by decide) (by decide) hm] at hc
  cases hc

/-- Numbers have no separator in them, so the last one of a candidate ends its base. -/
theorem base_eq_of_candidate_eq {b c : String} {m n : Nat}
    (h : binder.candidate b m = binder.candidate c n) : b = c := by
  have hl : b.toList ++ '#' :: Nat.toDigits 10 m = c.toList ++ '#' :: Nat.toDigits 10 n := by
    simpa [binder.candidate] using congrArg String.toList h
  have hd : ∀ k : Nat, '#' ∉ Nat.toDigits 10 k := notMem_toDigits (by decide)
  exact String.toList_inj.mp ((List.append_cons_inj_of_notMem_right (hd m) (hd n)).mp hl).1

/-- Fresh binders for different variables are different, whatever is taken. -/
theorem base_eq_of_binder_eq {b c : String} {taken taken' : List String}
    (h : binder b taken = binder c taken') : b = c :=
  base_eq_of_candidate_eq h

/-- **A fresh binder is none of the names that are taken.** -/
theorem binder_notMem (base : String) (taken : List String) : binder base taken ∉ taken :=
  number_notMem (candidate_injective base) 0 taken

end LayerCheck.Fresh
