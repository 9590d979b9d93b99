import LayerCheck.Expr.Printer
import LayerCheck.Proofs.Lists

/-!
# Names in texts

Texts are read from the left: what has been read is told from what follows by the characters that
may stand behind it.  Behind a name stands none of the characters that names consist of, so types,
typed variables and lists of them can be told from the texts they begin.

* `Ty.text_reading`, `Variable.text_reading`: types and variables can be told from the texts that
  begin with theirs.
* `commaSeparated_reading`: so can lists, if their elements can.
-/

namespace LayerCheck

/-! ## Names -/

/-- Letters, digits, `_` and `#`; beyond ASCII every character counts as a letter. -/
def isNamePart (c : Char) : Bool := c.isAlphanum || c == '_' || c == '#' || 128 ≤ c.toNat

def isNameStart (c : Char) : Bool := isNamePart c && !c.isDigit

/-- Words that no name may be. -/
def reserved : List String := ["true", "false", "old", "forall", "exists", "bool", "int"]

/-- Nonempty words of letters, digits, `_` and `#` that begin with no digit. -/
def isWord (s : String) : Bool := s.toList.head?.any isNameStart && s.toList.all isNamePart

def isName (s : String) : Bool := isWord s && s ∉ reserved

def Ty.wellNamed : Ty → Bool
  | .bool => true
  | .int => true
  | .map domain range => domain.wellNamed && range.wellNamed
  | .named name => isName name

def Variable.wellNamed (v : Variable) : Bool :=
  isName v.name && v.type.wellNamed && v.domain?.all isName

/-- The text begins with no part of a name. -/
def EndsWord (r : List Char) : Prop := ∀ c ∈ r.head?, isNamePart c = false

theorem endsWord_cons {c : Char} (hc : isNamePart c = false) (r : List Char) :
    EndsWord (c :: r) := by
  intro d hd
  obtain rfl := Option.some_inj.mp hd
  exact hc

theorem isWord_of_isName {s : String} (h : isName s = true) : isWord s = true :=
  (Bool.and_eq_true_iff.mp h).1

theorem notMem_reserved {s : String} (h : isName s = true) : s ∉ reserved := by
  simpa using (Bool.and_eq_true_iff.mp h).2

theorem exists_cons_of_isWord {s : String} (h : isWord s = true) :
    ∃ c cs, s.toList = c :: cs ∧ isNameStart c = true := by
  cases hs : s.toList with
  | nil => simp [isWord, hs] at h
  | cons c cs =>
    rw [isWord, hs, Bool.and_eq_true] at h
    exact ⟨c, cs, rfl, h.1⟩

/-- A word does not begin with a character that begins no word. -/
theorem word_append_ne {s : String} {c : Char} (h : isWord s = true) (hc : isNamePart c = false)
    (r r' : List Char) : s.toList ++ r ≠ c :: r' := by
  obtain ⟨d, ds, hs, hd⟩ := exists_cons_of_isWord h
  rw [hs]
  intro he
  rw [isNameStart, (List.cons.inj he).1, hc] at hd
  cases hd

/-- **Words can be told from the texts that begin with them.** -/
theorem word_reading {s t : String} {r r' : List Char} (hs : isWord s = true)
    (ht : isWord t = true) (hr : EndsWord r) (hr' : EndsWord r')
    (h : s.toList ++ r = t.toList ++ r') : s = t ∧ r = r' := by
  have hall : ∀ {s : String}, isWord s = true → ∀ c ∈ s.toList, isNamePart c = true :=
    fun h => List.all_eq_true.mp (Bool.and_eq_true_iff.mp h).2
  obtain ⟨hst, rfl⟩ := List.append_inj_of_all (hall hs) (hall ht) hr hr' h
  exact ⟨String.toList_inj.mp hst, rfl⟩

/-! ## Types -/

namespace Ty

/-- The text of a type that is a single word. -/
def word? : Ty → Option String
  | .bool => some "bool"
  | .int => some "int"
  | .map _ _ => none
  | .named name => some name

theorem isWord_of_word? {t : Ty} {s : String} (ht : t.wellNamed = true) (h : t.word? = some s) :
    isWord s = true := by
  cases t with
  | map d g => cases h
  | named name =>
    obtain rfl := Option.some_inj.mp h
    exact isWord_of_isName ht
  | _ =>
    obtain rfl := Option.some_inj.mp h
    decide

theorem text_of_word? {t : Ty} {s : String} (h : t.word? = some s) : t.text = s := by
  cases t with
  | map d g => cases h
  | _ => exact Option.some_inj.mp h

theorem toList_text_map (d g : Ty) :
    (map d g).text.toList = '[' :: (d.text.toList ++ ']' :: g.text.toList) := by
  simp [text]

theorem eq_of_word? {t u : Ty} {s : String} (ht : t.wellNamed = true) (hu : u.wellNamed = true)
    (h : t.word? = some s) (h' : u.word? = some s) : t = u := by
  have hbool : ∀ {name : String}, isName name = true → name ≠ "bool" := by
    rintro name hn rfl
    exact notMem_reserved hn (by decide)
  have hint : ∀ {name : String}, isName name = true → name ≠ "int" := by
    rintro name hn rfl
    exact notMem_reserved hn (by decide)
  have hw : t.word? = u.word? := h.trans h'.symm
  cases t with
  | map d g => cases h
  | bool =>
    cases u with
    | map d g => cases h'
    | bool => rfl
    | int => exact absurd hw (by decide)
    | named name => exact absurd (Option.some_inj.mp hw).symm (hbool hu)
  | int =>
    cases u with
    | map d g => cases h'
    | bool => exact absurd hw (by decide)
    | int => rfl
    | named name => exact absurd (Option.some_inj.mp hw).symm (hint hu)
  | named name =>
    cases u with
    | map d g => cases h'
    | bool => exact absurd (Option.some_inj.mp hw) (hbool ht)
    | int => exact absurd (Option.some_inj.mp hw) (hint ht)
    | named name' => rw [Option.some_inj.mp hw]

/-- A type that is a word does not read like one that begins with a bracket. -/
theorem text_reading_of_word? {t u : Ty} {s : String} {r r' : List Char} (hw : t.word? = some s)
    (ht : t.wellNamed = true) (hu : u.wellNamed = true) (hr : EndsWord r) (hr' : EndsWord r')
    (h : t.text.toList ++ r = u.text.toList ++ r') : t = u ∧ r = r' := by
  have hs := isWord_of_word? ht hw
  rw [text_of_word? hw] at h
  cases hw' : u.word? with
  | some s' =>
    rw [text_of_word? hw'] at h
    obtain ⟨rfl, rfl⟩ := word_reading hs (isWord_of_word? hu hw') hr hr' h
    exact ⟨eq_of_word? ht hu hw hw', rfl⟩
  | none =>
    cases u with
    | map d g =>
      rw [toList_text_map] at h
      exact absurd h (word_append_ne hs (by decide) _ _)
    | _ => cases hw'

/-- **Types can be told from the texts that begin with theirs.** -/
theorem text_reading {t u : Ty} {r r' : List Char} (ht : t.wellNamed = true)
    (hu : u.wellNamed = true) (hr : EndsWord r) (hr' : EndsWord r')
    (h : t.text.toList ++ r = u.text.toList ++ r') : t = u ∧ r = r' := by
  induction t generalizing u r r' with
  | map d g ihd ihg =>
    cases u with
    | map d' g' =>
      rw [wellNamed, Bool.and_eq_true] at ht hu
      simp only [toList_text_map, List.cons_append, List.append_assoc] at h
      obtain ⟨rfl, hg⟩ := ihd ht.1 hu.1 (endsWord_cons (by decide) _)
        (endsWord_cons (by decide) _) (List.cons.inj h).2
      obtain ⟨rfl, rfl⟩ := ihg ht.2 hu.2 hr hr' (List.cons.inj hg).2
      exact ⟨rfl, rfl⟩
    | _ =>
      obtain ⟨he, -⟩ := text_reading_of_word? rfl hu ht hr' hr h.symm
      cases he
  | _ => exact text_reading_of_word? rfl ht hu hr hr' h

end Ty

/-! ## Variables -/

namespace Variable

/-- The mark of a linear variable. -/
def mark : Option String → List Char
  | some d => '\x7b' :: (":linear \"".toList ++ (d.toList ++ '"' :: "\x7d ".toList))
  | none => []

theorem toList_text (v : Variable) : v.text.toList =
    mark v.domain? ++ (v.name.toList ++ ':' :: ' ' :: v.type.text.toList) := by
  cases hd : v.domain? <;> simp [text, mark, hd]

theorem wellNamed_iff {v : Variable} : v.wellNamed = true ↔
    isName v.name = true ∧ v.type.wellNamed = true ∧
      ∀ d, v.domain? = some d → isName d = true := by
  rw [wellNamed, Bool.and_eq_true, Bool.and_eq_true, Option.all_eq_true, and_assoc]

/-- A name follows at once unless there is a mark. -/
theorem mark_reading {d? d'? : Option String} {s t : String} {r r' : List Char}
    (hd : ∀ d, d? = some d → isName d = true) (hd' : ∀ d, d'? = some d → isName d = true)
    (hs : isName s = true) (ht : isName t = true)
    (h : mark d? ++ (s.toList ++ r) = mark d'? ++ (t.toList ++ r')) :
    d? = d'? ∧ s.toList ++ r = t.toList ++ r' := by
  cases d? with
  | none =>
    cases d'? with
    | none => exact ⟨rfl, h⟩
    | some d' => exact absurd h (word_append_ne (isWord_of_isName hs) (by decide) _ _)
  | some d =>
    cases d'? with
    | none => exact absurd h.symm (word_append_ne (isWord_of_isName ht) (by decide) _ _)
    | some d' =>
      simp only [mark, List.cons_append, List.append_assoc] at h
      have hquote : ∀ r, EndsWord ('"' :: r) := endsWord_cons (by decide)
      obtain ⟨rfl, hrest⟩ := word_reading (isWord_of_isName (hd d rfl))
        (isWord_of_isName (hd' d' rfl)) (hquote _) (hquote _)
        (List.append_cancel_left (List.cons.inj h).2)
      exact ⟨rfl, List.append_cancel_left (List.cons.inj hrest).2⟩

/-- **Typed variables can be told from the texts that begin with theirs.** -/
theorem text_reading {v w : Variable} {r r' : List Char} (hv : v.wellNamed = true)
    (hw : w.wellNamed = true) (hr : EndsWord r) (hr' : EndsWord r')
    (h : v.text.toList ++ r = w.text.toList ++ r') : v = w ∧ r = r' := by
  obtain ⟨hvname, hvtype, hvdomain⟩ := wellNamed_iff.mp hv
  obtain ⟨hwname, hwtype, hwdomain⟩ := wellNamed_iff.mp hw
  simp only [toList_text, List.append_assoc, List.cons_append] at h
  obtain ⟨hdomain, h⟩ := mark_reading hvdomain hwdomain hvname hwname h
  have hcolon : ∀ r, EndsWord (':' :: r) := endsWord_cons (by decide)
  obtain ⟨hname, h⟩ := word_reading (isWord_of_isName hvname) (isWord_of_isName hwname)
    (hcolon _) (hcolon _) h
  obtain ⟨htype, rfl⟩ := Ty.text_reading hvtype hwtype hr hr' (List.cons.inj (List.cons.inj h).2).2
  refine ⟨?_, rfl⟩
  cases v
  cases w
  obtain rfl : _ = _ := hname
  obtain rfl : _ = _ := htype
  obtain rfl : _ = _ := hdomain
  rfl

/-- No variable begins with a blank. -/
theorem text_append_ne {v : Variable} (hv : v.wellNamed = true) (r r' : List Char) :
    v.text.toList ++ r ≠ ' ' :: r' := by
  simp only [toList_text, List.append_assoc]
  cases v.domain? with
  | none => exact word_append_ne (isWord_of_isName (wellNamed_iff.mp hv).1) (by decide) _ _
  | some d =>
    intro h
    exact absurd (List.cons.inj h).1 (by decide)

end Variable

/-! ## Lists -/

theorem toList_commaSeparated_cons (s : String) (ss : List String) :
    (commaSeparated (s :: ss)).toList =
      s.toList ++ ss.flatMap fun t => ',' :: ' ' :: t.toList := by
  induction ss generalizing s with
  | nil => simp [commaSeparated]
  | cons t ss ih =>
    have htail := ih t
    rw [commaSeparated, String.toList_intercalate] at htail ⊢
    rw [List.map_cons, List.map_cons, List.intercalate_cons_cons, ← List.map_cons, htail]
    simp

section

variable {α : Type} {text : α → String} (stop : List Char → Prop) {c : Char} {as bs : List α}
  {r r' : List Char}

/-- The elements behind the first one. -/
theorem commaSeparated_tail_reading (hcomma : ∀ r, stop (',' :: r)) (hc : c ≠ ',')
    (hstop : ∀ r, stop (c :: r))
    (hread : ∀ a ∈ as, ∀ b ∈ bs, ∀ r r', stop r → stop r' →
      (text a).toList ++ r = (text b).toList ++ r' → a = b ∧ r = r')
    (h : ((as.map text).flatMap fun t => ',' :: ' ' :: t.toList) ++ c :: r =
      ((bs.map text).flatMap fun t => ',' :: ' ' :: t.toList) ++ c :: r') : as = bs ∧ r = r' := by
  -- what follows an element begins with a comma or with `c`
  have hends : ∀ (l : List String) (r : List Char),
      stop ((l.flatMap fun t => ',' :: ' ' :: t.toList) ++ c :: r) := by
    intro l r
    cases l with
    | nil => exact hstop r
    | cons t l => exact hcomma _
  induction as generalizing bs with
  | nil =>
    cases bs with
    | nil => exact ⟨rfl, (List.cons.inj h).2⟩
    | cons b bs => exact absurd (List.cons.inj h).1 hc
  | cons a as ih =>
    cases bs with
    | nil => exact absurd (List.cons.inj h).1.symm hc
    | cons b bs =>
      simp only [List.map_cons, List.flatMap_cons, List.cons_append, List.append_assoc] at h
      obtain ⟨rfl, hrest⟩ := hread a List.mem_cons_self b List.mem_cons_self _ _ (hends _ _)
        (hends _ _) (List.cons.inj (List.cons.inj h).2).2
      obtain ⟨rfl, rfl⟩ := ih (fun a ha b hb =>
        hread a (List.mem_cons_of_mem _ ha) b (List.mem_cons_of_mem _ hb)) hrest
      exact ⟨rfl, rfl⟩

/-- **Lists can be told from the texts that begin with theirs** and go on with `c`, if their
elements can. -/
theorem commaSeparated_reading (hcomma : ∀ r, stop (',' :: r)) (hc : c ≠ ',')
    (hstop : ∀ r, stop (c :: r))
    (hread : ∀ a ∈ as, ∀ b ∈ bs, ∀ r r', stop r → stop r' →
      (text a).toList ++ r = (text b).toList ++ r' → a = b ∧ r = r')
    (ha : ∀ a ∈ as, ∀ r r', (text a).toList ++ r ≠ c :: r')
    (hb : ∀ b ∈ bs, ∀ r r', (text b).toList ++ r ≠ c :: r')
    (h : (commaSeparated (as.map text)).toList ++ c :: r =
      (commaSeparated (bs.map text)).toList ++ c :: r') : as = bs ∧ r = r' := by
  cases as with
  | nil =>
    cases bs with
    | nil => exact ⟨rfl, (List.cons.inj h).2⟩
    | cons b bs =>
      rw [List.map_cons, toList_commaSeparated_cons, List.append_assoc] at h
      exact absurd h.symm (hb b List.mem_cons_self _ _)
  | cons a as =>
    cases bs with
    | nil =>
      rw [List.map_cons, toList_commaSeparated_cons, List.append_assoc] at h
      exact absurd h (ha a List.mem_cons_self _ _)
    | cons b bs =>
      -- with a comma in front, the first elements are like the others
      refine commaSeparated_tail_reading stop hcomma hc hstop hread ?_
      simp only [List.map_cons, toList_commaSeparated_cons, List.append_assoc] at h
      simp only [List.map_cons, List.flatMap_cons, List.cons_append, List.append_assoc, h]

end

end LayerCheck
