import LayerCheck.Table
import Mathlib.Data.List.Nodup

/-!
# What a table holds after a run of insertions

`Table.get?` is the view of a table.  Here it is read after `insertAll`, `ofList`, `erase` and
`insertIfNew`: of several entries for one key the last one counts, unless the key is inserted only
if it is new; then the first one counts.

* `Table.get?_eq_some_iff`: a look-up finds what stands in the table.
* `Table.KeyedBy.name_eq`, `Table.KeyedBy.get?_of_mem`: what is kept under its own name.
* `Table.get?_insertAll`, `Table.get?_ofList`: tables from lists of entries.
* `Table.keys_insertAll`, `Table.keys_modify`: changes of values keep the order of the keys.
* `Table.get?_foldl_insertIfNew`: tables in which the first entry of a key stays.
-/

namespace LayerCheck.Table

variable {κ ν α : Type} [DecidableEq κ]

/-! ## Look-up -/

theorem lookup_eq_some_iff {es : List (κ × ν)} (hn : (es.map Prod.fst).Nodup) {k : κ} {v : ν} :
    es.lookup k = some v ↔ (k, v) ∈ es := by
  induction es with
  | nil => simp
  | cons e es ih =>
    obtain ⟨k', v'⟩ := e
    rw [List.map_cons, List.nodup_cons] at hn
    rw [List.lookup_cons, List.mem_cons]
    by_cases hk : k = k'
    · subst hk
      have hv : (k, v) ∉ es := fun h => hn.1 (List.mem_map.mpr ⟨(k, v), h, rfl⟩)
      simp [hv, eq_comm]
    · have hb : (k == k') = false := by simpa using hk
      rw [hb, ih hn.2]
      simp [hk]

theorem get?_eq_some_iff {t : Table κ ν} {k : κ} {v : ν} :
    t.get? k = some v ↔ (k, v) ∈ t.entries :=
  lookup_eq_some_iff t.keys_nodup

/-- The order of the entries does not matter for look-ups. -/
theorem get?_eq_of_perm {t u : Table κ ν} (h : t.entries.Perm u.entries) (k : κ) :
    t.get? k = u.get? k := by
  apply Option.ext
  intro v
  rw [get?_eq_some_iff, get?_eq_some_iff, h.mem_iff]

theorem mem_values {t : Table κ ν} {v : ν} : v ∈ t.values ↔ ∃ k, t.get? k = some v := by
  simp [values, get?_eq_some_iff]

theorem mem_keys {t : Table κ ν} {k : κ} : k ∈ t.keys ↔ ∃ v, t.get? k = some v := by
  rw [← isSome_get?_iff, Option.isSome_iff_exists]

theorem get?_eq_none_iff {t : Table κ ν} {k : κ} : t.get? k = none ↔ k ∉ t.keys := by
  rw [← isSome_get?_iff]
  cases t.get? k <;> simp

theorem get?_insert (t : Table κ ν) (k k' : κ) (v : ν) :
    (t.insert k v).get? k' = if k' = k then some v else t.get? k' := by
  by_cases h : k' = k
  · subst h
    rw [if_pos rfl, get?_insert_self]
  · rw [if_neg h, get?_insert_of_ne t h]

/-! ## Values under their names -/

namespace KeyedBy

variable {name : ν → κ} {t : Table κ ν}

omit [DecidableEq κ] in
theorem map_values_eq_keys (h : t.KeyedBy name) : t.values.map name = t.keys := by
  rw [values, keys, List.map_map]
  exact List.map_congr_left h

omit [DecidableEq κ] in
theorem nodup_names (h : t.KeyedBy name) : (t.values.map name).Nodup :=
  h.map_values_eq_keys ▸ t.keys_nodup

theorem name_eq (h : t.KeyedBy name) {k : κ} {v : ν} (hv : t.get? k = some v) : name v = k :=
  h _ (get?_eq_some_iff.mp hv)

theorem get?_of_mem (h : t.KeyedBy name) {v : ν} (hv : v ∈ t.values) : t.get? (name v) = some v := by
  obtain ⟨k, hk⟩ := mem_values.mp hv
  rw [h.name_eq hk, hk]

end KeyedBy

/-! ## Many entries -/

/-- New keys come behind the others, in order. -/
theorem entries_insertAll {es : List (κ × ν)} {t : Table κ ν}
    (hn : (t.keys ++ es.map Prod.fst).Nodup) : (t.insertAll es).entries = t.entries ++ es := by
  induction es generalizing t with
  | nil => exact (List.append_nil _).symm
  | cons e es ih =>
    have he : e.1 ∉ t.keys := fun hm =>
      (List.nodup_append.mp hn).2.2 _ hm _ List.mem_cons_self rfl
    have hk := keys_insert_of_notMem he e.2
    show ((t.insert e.1 e.2).insertAll es).entries = _
    rw [ih (by rw [hk, List.append_assoc]; exact hn), insert, dif_neg he]
    exact List.append_assoc ..

theorem entries_ofList {es : List (κ × ν)} (hn : (es.map Prod.fst).Nodup) :
    (ofList es).entries = es :=
  entries_insertAll hn

/-- The last entry of a key is the one that counts. -/
theorem get?_insertAll (t : Table κ ν) (es : List (κ × ν)) (k : κ) :
    (t.insertAll es).get? k = (es.reverse.lookup k).or (t.get? k) := by
  induction es generalizing t with
  | nil => simp [insertAll]
  | cons e es ih =>
    obtain ⟨k', v⟩ := e
    have hstep : t.insertAll ((k', v) :: es) = (t.insert k' v).insertAll es := rfl
    rw [hstep, ih, get?_insert, List.reverse_cons, List.lookup_append, Option.or_assoc,
      List.lookup_cons]
    congr 1
    by_cases h : k = k'
    · simp [h]
    · have hb : (k == k') = false := by simpa using h
      rw [if_neg h, hb]
      rfl

theorem lookup_reverse_eq_some_iff {es : List (κ × ν)} (hn : (es.map Prod.fst).Nodup) {k : κ}
    {v : ν} : es.reverse.lookup k = some v ↔ (k, v) ∈ es := by
  have hr : (es.reverse.map Prod.fst).Nodup := by
    rw [List.map_reverse]
    exact List.nodup_reverse.mpr hn
  rw [lookup_eq_some_iff hr, List.mem_reverse]

theorem get?_insertAll_of_mem {es : List (κ × ν)} (hn : (es.map Prod.fst).Nodup) {e : κ × ν}
    (he : e ∈ es) (t : Table κ ν) : (t.insertAll es).get? e.1 = some e.2 := by
  rw [get?_insertAll, (lookup_reverse_eq_some_iff hn).mpr he, Option.some_or]

theorem get?_ofList (es : List (κ × ν)) (k : κ) : (ofList es).get? k = es.reverse.lookup k := by
  rw [ofList, get?_insertAll, get?_empty, Option.or_none]

theorem get?_ofList_eq_some_iff {es : List (κ × ν)} (hn : (es.map Prod.fst).Nodup) {k : κ}
    {v : ν} : (ofList es).get? k = some v ↔ (k, v) ∈ es := by
  rw [get?_ofList, lookup_reverse_eq_some_iff hn]

theorem get?_insertAll_of_notMem {es : List (κ × ν)} {k : κ} (hk : k ∉ es.map Prod.fst)
    (t : Table κ ν) : (t.insertAll es).get? k = t.get? k := by
  have hl : es.reverse.lookup k = none := by
    rw [List.lookup_eq_none_iff]
    intro e he
    have hne : k ≠ e.1 := fun h => hk (h ▸ List.mem_map_of_mem (List.mem_reverse.mp he))
    simpa using hne
  rw [get?_insertAll, hl, Option.none_or]

/-- Giving keys that are there new values keeps the order of the keys. -/
theorem keys_insertAll {es : List (κ × ν)} {t : Table κ ν} (h : ∀ e ∈ es, e.1 ∈ t.keys) :
    (t.insertAll es).keys = t.keys := by
  induction es generalizing t with
  | nil => rfl
  | cons e es ih =>
    rw [List.forall_mem_cons] at h
    have he : (t.insert e.1 e.2).keys = t.keys := keys_insert_of_mem h.1 e.2
    show ((t.insert e.1 e.2).insertAll es).keys = t.keys
    rw [ih (by rw [he]; exact h.2), he]

/-! ## Changing a value -/

theorem keys_modify (t : Table κ ν) (k : κ) (f : ν → ν) : (t.modify k f).keys = t.keys :=
  keys_map _ t

theorem get?_modify (t : Table κ ν) (k k' : κ) (f : ν → ν) :
    (t.modify k f).get? k' = (t.get? k').map fun v => if k' = k then f v else v :=
  get?_map _ t k'

/-- Changing the value that stands there is putting the changed one in its place. -/
theorem modify_eq_insert {t : Table κ ν} {k : κ} {v : ν} (h : t.get? k = some v) (f : ν → ν) :
    t.modify k f = t.insert k (f v) := by
  have hk : k ∈ t.keys := mem_keys.mpr ⟨v, h⟩
  have he : (t.modify k f).entries = (t.insert k (f v)).entries := by
    rw [insert, dif_pos hk, modify, map, map]
    refine List.map_congr_left fun e he => ?_
    by_cases hek : e.1 = k
    · have hv : e.2 = v := by
        have := get?_eq_some_iff.mpr (show (k, e.2) ∈ t.entries from hek ▸ he)
        exact Option.some_inj.mp (this.symm.trans h)
      rw [if_pos hek, if_pos hek, hv]
    · rw [if_neg hek, if_neg hek]
  generalize t.modify k f = u at he
  generalize t.insert k (f v) = w at he
  obtain ⟨_, _⟩ := u
  obtain ⟨_, _⟩ := w
  obtain rfl := he
  rfl

/-! ## Taking keys out -/

/-- Keeps the keys that pass the test, in their order. -/
def filter (t : Table κ ν) (keep : κ → Bool) : Table κ ν where
  entries := t.entries.filter fun e => keep e.1
  keys_nodup := (List.filter_sublist.map Prod.fst).nodup t.keys_nodup

theorem get?_filter (t : Table κ ν) (keep : κ → Bool) (k : κ) :
    (t.filter keep).get? k = if keep k then t.get? k else none := by
  apply Option.ext
  intro v
  by_cases h : keep k
  · rw [if_pos h, get?_eq_some_iff, get?_eq_some_iff]
    simp [filter, h]
  · rw [if_neg h, get?_eq_some_iff]
    simp [filter, h]

theorem get?_erase (t : Table κ ν) (k k' : κ) :
    (t.erase k).get? k' = if k' = k then none else t.get? k' := by
  apply Option.ext
  intro v
  by_cases h : k' = k
  · subst h
    rw [if_pos rfl, get?_eq_some_iff]
    simp [erase]
  · rw [if_neg h, get?_eq_some_iff, get?_eq_some_iff]
    simp [erase, h]

theorem get?_eraseAll (t : Table κ ν) (ks : List κ) (k : κ) :
    (t.eraseAll ks).get? k = if k ∈ ks then none else t.get? k := by
  induction ks generalizing t with
  | nil => simp [eraseAll]
  | cons k' ks ih =>
    have hstep : t.eraseAll (k' :: ks) = (t.erase k').eraseAll ks := rfl
    rw [hstep, ih, get?_erase]
    by_cases h : k ∈ ks
    · simp [h]
    · by_cases hk : k = k' <;> simp [h, hk]

/-! ## The first entry of a key -/

theorem get?_insertIfNew (t : Table κ ν) (k k' : κ) (v : ν) :
    (t.insertIfNew k v).get? k' = (t.get? k').or (if k' = k then some v else none) := by
  rw [insertIfNew]
  by_cases hk : k ∈ t.keys
  · rw [if_pos hk]
    by_cases h : k' = k
    · subst h
      obtain ⟨w, hw⟩ := mem_keys.mp hk
      simp [hw]
    · simp [h]
  · rw [if_neg hk, get?_insert]
    by_cases h : k' = k
    · subst h
      simp [get?_eq_none_iff.mpr hk]
    · simp [h]

/-- If keys are inserted only while they are new, the first entry of a key stays. -/
theorem get?_foldl_insertIfNew (key : α → κ) (value : α → ν) (l : List α) (t : Table κ ν) (k : κ) :
    (l.foldl (fun t a => t.insertIfNew (key a) (value a)) t).get? k =
      (t.get? k).or ((l.find? fun a => key a = k).map value) := by
  induction l generalizing t with
  | nil => simp
  | cons a l ih =>
    rw [List.foldl_cons, ih, get?_insertIfNew, Option.or_assoc, List.find?_cons]
    congr 1
    by_cases h : k = key a
    · simp [h]
    · have h' : ¬ key a = k := fun e => h e.symm
      simp [h, h']

theorem mem_keys_foldl_insertIfNew (key : α → κ) (value : α → ν) (l : List α) (t : Table κ ν)
    {k : κ} : k ∈ (l.foldl (fun t a => t.insertIfNew (key a) (value a)) t).keys ↔
      k ∈ t.keys ∨ ∃ a ∈ l, key a = k := by
  rw [← isSome_get?_iff, get?_foldl_insertIfNew, Option.isSome_or, Option.isSome_map,
    Bool.or_eq_true, isSome_get?_iff, List.find?_isSome]
  simp

end LayerCheck.Table
