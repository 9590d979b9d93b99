/-!
# Tables

A finite map that remembers the order in which its keys came in. A key that is inserted again keeps
its first place and takes the new value, so the order of the keys depends on first insertions only.

* `Table.insert`, `Table.erase`, `Table.map`: the operations; keys stay distinct by construction.
* `Table.get?`: the view through which a table is read.
* `Table.KeyedBy`: every value is kept under its own name.
-/

namespace LayerCheck

structure Table (κ ν : Type) where
  entries : List (κ × ν) := []
  keys_nodup : (entries.map Prod.fst).Nodup := by simp

namespace Table

variable {κ ν μ : Type}

def empty : Table κ ν := {}

instance : EmptyCollection (Table κ ν) where
  emptyCollection := empty

instance : Inhabited (Table κ ν) where
  default := empty

def keys (t : Table κ ν) : List κ := t.entries.map Prod.fst

def values (t : Table κ ν) : List ν := t.entries.map Prod.snd

def size (t : Table κ ν) : Nat := t.entries.length

def isEmpty (t : Table κ ν) : Bool := t.entries.isEmpty

/-- Changes every value, in the light of its key. -/
def map (f : κ → ν → μ) (t : Table κ ν) : Table κ μ where
  entries := t.entries.map fun e => (e.1, f e.1 e.2)
  keys_nodup := by simpa [Function.comp_def] using t.keys_nodup

@[simp] theorem keys_map (f : κ → ν → μ) (t : Table κ ν) : (t.map f).keys = t.keys := by
  simp [keys, map, Function.comp_def]

variable [DecidableEq κ]

def get? (t : Table κ ν) (k : κ) : Option ν := t.entries.lookup k

def contains (t : Table κ ν) (k : κ) : Bool := t.keys.contains k

/-- Sets the value of `k`: in place if `k` is there already, at the end otherwise. -/
def insert (t : Table κ ν) (k : κ) (v : ν) : Table κ ν :=
  if h : k ∈ t.keys then t.map fun k' old => if k' = k then v else old
  else
    { entries := t.entries ++ [(k, v)]
      keys_nodup := by
        rw [List.map_append]
        refine List.nodup_append.2 ⟨t.keys_nodup, by simp, ?_⟩
        rintro a ha b hb rfl
        simp only [List.map_cons, List.map_nil, List.mem_singleton] at hb
        exact h (hb ▸ ha) }

/-- Sets the value of `k` unless `k` is there already. -/
def insertIfNew (t : Table κ ν) (k : κ) (v : ν) : Table κ ν :=
  if k ∈ t.keys then t else t.insert k v

/-- Changes the value of `k`, if there is one. -/
def modify (t : Table κ ν) (k : κ) (f : ν → ν) : Table κ ν :=
  t.map fun k' v => if k' = k then f v else v

/-- Takes `k` out; the other keys keep their order. -/
def erase (t : Table κ ν) (k : κ) : Table κ ν where
  entries := t.entries.filter fun e => e.1 ≠ k
  keys_nodup := (List.filter_sublist.map Prod.fst).nodup t.keys_nodup

def eraseAll (t : Table κ ν) (ks : List κ) : Table κ ν := ks.foldl erase t

def insertAll (t : Table κ ν) (es : List (κ × ν)) : Table κ ν :=
  es.foldl (fun t e => t.insert e.1 e.2) t

def ofList (es : List (κ × ν)) : Table κ ν := empty.insertAll es

/-- Every value is kept under its own name. -/
def KeyedBy (name : ν → κ) (t : Table κ ν) : Prop := ∀ e ∈ t.entries, name e.2 = e.1

instance (name : ν → κ) (t : Table κ ν) : Decidable (t.KeyedBy name) :=
  inferInstanceAs (Decidable (∀ e ∈ t.entries, name e.2 = e.1))

/-! ## Keys and look-up after each operation -/

theorem keys_insert_of_mem {t : Table κ ν} {k : κ} (h : k ∈ t.keys) (v : ν) :
    (t.insert k v).keys = t.keys := by
  simp [insert, h]

theorem keys_insert_of_notMem {t : Table κ ν} {k : κ} (h : k ∉ t.keys) (v : ν) :
    (t.insert k v).keys = t.keys ++ [k] := by
  rw [insert, dif_neg h]
  simp [keys]

@[simp] theorem get?_empty (k : κ) : (empty : Table κ ν).get? k = none := rfl

theorem get?_map (f : κ → ν → μ) (t : Table κ ν) (k : κ) :
    (t.map f).get? k = (t.get? k).map (f k) := by
  obtain ⟨es, h⟩ := t
  simp only [get?, map]
  clear h
  induction es with
  | nil => rfl
  | cons e es ih =>
    obtain ⟨k', v⟩ := e
    simp only [List.map_cons, List.lookup_cons]
    cases hk : k == k' with
    | true => simp [eq_of_beq hk]
    | false => exact ih

theorem isSome_get?_iff {t : Table κ ν} {k : κ} : (t.get? k).isSome ↔ k ∈ t.keys := by
  obtain ⟨es, h⟩ := t
  simp only [get?, keys]
  clear h
  induction es with
  | nil => simp
  | cons e es ih =>
    obtain ⟨k', v⟩ := e
    rw [List.lookup_cons, List.map_cons, List.mem_cons]
    cases hk : k == k' with
    | true => simp [eq_of_beq hk]
    | false => simp [ne_of_beq_false hk]

theorem get?_insert_self (t : Table κ ν) (k : κ) (v : ν) : (t.insert k v).get? k = some v := by
  unfold insert
  split
  · rename_i h
    obtain ⟨w, hw⟩ := Option.isSome_iff_exists.1 (isSome_get?_iff.2 h)
    simp [get?_map, hw]
  · rename_i h
    have hn : t.entries.lookup k = none := by
      have := mt isSome_get?_iff.1 h
      rwa [Bool.not_eq_true, Option.isSome_eq_false_iff, Option.isNone_iff_eq_none] at this
    simp [get?, List.lookup_append, hn]

theorem get?_insert_of_ne (t : Table κ ν) {k k' : κ} (hk : k' ≠ k) (v : ν) :
    (t.insert k v).get? k' = t.get? k' := by
  unfold insert
  split
  · rw [get?_map]
    simp [hk]
  · have : (k' == k) = false := by simpa using hk
    simp [get?, List.lookup_append, List.lookup_cons, this]

/-! ## Values under their names -/

section KeyedBy

variable {name : ν → κ} {t : Table κ ν}

omit [DecidableEq κ] in
@[simp] theorem keyedBy_empty : (∅ : Table κ ν).KeyedBy name :=
  fun _ he => absurd he List.not_mem_nil

omit [DecidableEq κ] in
theorem KeyedBy.map (h : t.KeyedBy name) {f : κ → ν → ν}
    (hf : ∀ k v, name v = k → name (f k v) = k) : (t.map f).KeyedBy name := by
  intro e he
  obtain ⟨e', he', rfl⟩ := List.mem_map.1 he
  exact hf _ _ (h e' he')

theorem KeyedBy.insert (h : t.KeyedBy name) {k : κ} {v : ν} (hv : name v = k) :
    (t.insert k v).KeyedBy name := by
  unfold Table.insert
  split
  · refine h.map fun k' old hold => ?_
    split
    · rename_i hk
      rw [hv, hk]
    · exact hold
  · intro e he
    rcases List.mem_append.1 he with he | he
    · exact h e he
    · obtain rfl := List.mem_singleton.1 he
      exact hv

theorem KeyedBy.modify (h : t.KeyedBy name) (k : κ) {f : ν → ν} (hf : ∀ v, name (f v) = name v) :
    (t.modify k f).KeyedBy name := by
  refine h.map fun k' v hv => ?_
  split
  · rw [hf, hv]
  · exact hv

theorem KeyedBy.insertAll (h : t.KeyedBy name) {es : List (κ × ν)}
    (hes : ∀ e ∈ es, name e.2 = e.1) : (t.insertAll es).KeyedBy name := by
  induction es generalizing t with
  | nil => exact h
  | cons e es ih =>
    exact ih (h.insert (hes e (List.mem_cons_self ..)))
      fun e' he' => hes e' (List.mem_cons_of_mem _ he')

@[simp] theorem keyedBy_ofList {es : List (κ × ν)} (hes : ∀ e ∈ es, name e.2 = e.1) :
    (ofList es).KeyedBy name :=
  KeyedBy.insertAll keyedBy_empty hes

end KeyedBy

end Table

end LayerCheck
