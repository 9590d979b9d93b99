import LayerCheck.Proofs.Expr.Fresh
import LayerCheck.Proofs.Expr.Names
import LayerCheck.Proofs.Expr.Occurrences

/-!
# Printed expressions are unambiguous

Two expressions with the same text are the same.  What is shown of two texts is more: if they agree
with something behind each of them, and no operator in what is behind could take the expression for
its operand, then expressions and rests agree.  In this form the statement goes down to the parts of
an expression.  The levels are gone through from the tightest, where an operand is a word, a number,
a negation or a group in parentheses and its first character tells which, to the loosest.  A level
adds the operators of just that level, and of these an operand without parentheses has one at most.

* `Expr.wellNamed`: the names in an expression are names.
* `Stops`: what may stand behind an operand.
* `Expr.Readable`: an operand can be told from the texts that begin with it.
* `Expr.text_eq_iff`: expressions can be told from their texts.
-/

namespace LayerCheck

namespace Expr

mutual

/-- Variables, functions, types and domains have names that no keyword and no number can be. -/
def wellNamed : Expr → Bool
  | .bool _ => true
  | .int _ => true
  | .var x => isName x
  | .old e => e.wellNamed
  | .not e => e.wellNamed
  | .binary _ a b => a.wellNamed && b.wellNamed
  | .app f args => isName f && wellNamedList args
  | .quant _ vars body => vars.all Variable.wellNamed && body.wellNamed

def wellNamedList : List Expr → Bool
  | [] => true
  | e :: es => e.wellNamed && wellNamedList es

end

theorem wellNamedList_eq (es : List Expr) : wellNamedList es = es.all wellNamed := by
  induction es with
  | nil => rfl
  | cons e es ih => rw [wellNamedList, ih, List.all_cons]

theorem textOfList_eq (es : List Expr) : textOfList es = es.map text := by
  induction es with
  | nil => rfl
  | cons e es ih => rw [textOfList, ih, List.map_cons]

theorem wellNamed_of_mem_parts {e c : Expr} (he : e.wellNamed = true) (hc : c ∈ e.parts) :
    c.wellNamed = true := by
  cases e with
  | bool b => cases hc
  | int n => cases hc
  | var x => cases hc
  | old e =>
    obtain rfl := List.mem_singleton.mp hc
    exact he
  | not e =>
    obtain rfl := List.mem_singleton.mp hc
    exact he
  | binary op a b =>
    rw [wellNamed, Bool.and_eq_true] at he
    rcases List.mem_pair.mp hc with rfl | rfl
    · exact he.1
    · exact he.2
  | app f args =>
    rw [wellNamed, wellNamedList_eq, Bool.and_eq_true] at he
    exact List.all_eq_true.mp he.2 c hc
  | quant q vars body =>
    obtain rfl := List.mem_singleton.mp hc
    exact (Bool.and_eq_true_iff.mp he).2

end Expr

/-! ## Operators and keywords -/

namespace BinOp

theorem symbol_injective {op op' : BinOp} (h : op.symbol = op'.symbol) : op = op' := by
  cases op <;> cases op' <;> first | rfl | exact absurd h (by decide)

theorem one_le_level (op : BinOp) : 1 ≤ op.level := by cases op <;> decide

theorem level_lt_negationLevel (op : BinOp) : op.level < negationLevel := by cases op <;> decide

/-- The operator, with blanks around it, in front of the text of its right operand. -/
def before (op : BinOp) (r : List Char) : List Char := ' ' :: (op.symbol.toList ++ ' ' :: r)

theorem before_append (op : BinOp) (r r' : List Char) :
    op.before r ++ r' = op.before (r ++ r') := by
  rw [before, before, List.cons_append, List.append_assoc, List.cons_append]

theorem before_inj {op op' : BinOp} {r r' : List Char} (h : op.before r = op'.before r') :
    op = op' ∧ r = r' := by
  have hblank : ∀ op : BinOp, ' ' ∉ op.symbol.toList := by
    intro op
    cases op <;> decide
  obtain ⟨hs, rfl⟩ :=
    (List.append_cons_inj_of_notMem_left (hblank op) (hblank op')).mp (List.cons.inj h).2
  exact ⟨symbol_injective (String.toList_inj.mp hs), rfl⟩

end BinOp

namespace Quantifier

theorem keyword_injective {q q' : Quantifier} (h : q.keyword = q'.keyword) : q = q' := by
  cases q with
  | all =>
    cases q' with
    | all => rfl
    | some => exact absurd h (by decide)
  | some =>
    cases q' with
    | all => exact absurd h (by decide)
    | some => rfl

theorem isWord_keyword (q : Quantifier) : isWord q.keyword = true := by cases q <;> decide

end Quantifier

/-- The text can stand behind an operand at the level without becoming part of it: no tighter
operator follows. -/
inductive Stops (level : Nat) : List Char → Prop
  | nil : Stops level []
  | close (r : List Char) : Stops level (')' :: r)
  | comma (r : List Char) : Stops level (',' :: r)
  | op {op : BinOp} (h : op.level ≤ level) (r : List Char) : Stops level (op.before r)

namespace Stops

variable {level : Nat} {r : List Char}

theorem mono {level' : Nat} (h : level ≤ level') (hr : Stops level r) : Stops level' r := by
  cases hr with
  | nil => exact .nil
  | close r => exact .close r
  | comma r => exact .comma r
  | op hop r => exact .op (hop.trans h) r

theorem level_le {op : BinOp} (h : Stops level (op.before r)) : op.level ≤ level := by
  generalize ht : op.before r = t at h
  cases h with
  | nil => cases ht
  | close r => exact absurd (List.cons.inj ht).1 (by decide)
  | comma r => exact absurd (List.cons.inj ht).1 (by decide)
  | op hop r =>
    obtain ⟨rfl, -⟩ := BinOp.before_inj ht
    exact hop

/-- What follows an operand begins like no operand does. -/
theorem mem_of_head? (h : Stops level r) {c : Char} (hc : c ∈ r.head?) : c ∈ [')', ',', ' '] := by
  cases h with
  | nil => cases hc
  | close r =>
    obtain rfl := Option.some_inj.mp hc
    decide
  | comma r =>
    obtain rfl := Option.some_inj.mp hc
    decide
  | op hop r =>
    obtain rfl := Option.some_inj.mp hc
    decide

theorem head?_eq_false {p : Char → Bool} (h : Stops level r) (hp : [')', ',', ' '].any p = false) :
    ∀ c ∈ r.head?, p c = false := by
  intro c hc
  simpa using List.any_eq_false.mp hp c (h.mem_of_head? hc)

theorem endsWord (h : Stops level r) : EndsWord r := h.head?_eq_false (by decide)

end Stops

namespace Expr

/-! ## Operands -/

/-- The text of an operand at a level. -/
def operand (level : Nat) (e : Expr) : List Char :=
  (if e.needsParens level then inParens e.text else e.text).toList

theorem toList_inParens (s : String) : (inParens s).toList = '(' :: (s.toList ++ [')']) := by
  simp [inParens]

theorem operand_of_needsParens {level : Nat} {e : Expr} (h : e.needsParens level = true) :
    e.operand level = '(' :: (e.text.toList ++ [')']) := by
  rw [operand, if_pos h, toList_inParens]

theorem operand_of_not_needsParens {level : Nat} {e : Expr} (h : e.needsParens level = false) :
    e.operand level = e.text.toList := by
  rw [operand, if_neg (by rw [h]; decide)]

theorem toList_text_not (e : Expr) :
    (Expr.not e).text.toList = '!' :: e.operand negationLevel := by
  simp [text, operand]

theorem toList_text_binary (op : BinOp) (a b : Expr) : (binary op a b).text.toList =
    a.operand op.level ++ op.before (b.operand op.level) := by
  simp [text, operand, BinOp.before]

theorem toList_text_quant (q : Quantifier) (vars : List Variable) (body : Expr) :
    (quant q vars body).text.toList = q.keyword.toList ++ ' ' ::
      ((commaSeparated (vars.map Variable.text)).toList ++ ' ' :: ':' :: ':' :: ' ' ::
        body.text.toList) := by
  simp [text]

theorem operand_binary {op : BinOp} {a b : Expr} {level : Nat} (h : level < op.level) :
    (binary op a b).operand level = a.operand op.level ++ op.before (b.operand op.level) := by
  rw [operand_of_not_needsParens (by simpa [needsParens] using h), toList_text_binary]

/-- With no operator outside, only quantifiers count as operands in parentheses. -/
theorem exists_quant_of_needsParens {e : Expr} (h : e.needsParens 0 = true) :
    ∃ q vars body, e = quant q vars body := by
  cases e with
  | quant q vars body => exact ⟨q, vars, body, rfl⟩
  | binary op a b =>
    have hle : op.level ≤ 0 := of_decide_eq_true h
    have := op.one_le_level
    omega
  | _ => cases h

/-- Only the operators of the next level make a difference to it. -/
theorem operand_succ (level : Nat) (e : Expr) : e.operand level = e.operand (level + 1) ∨
    ∃ op a b, e = binary op a b ∧ op.level = level + 1 := by
  cases e with
  | binary op a b =>
    by_cases h : op.level = level + 1
    · exact .inr ⟨op, a, b, rfl, h⟩
    · left
      have hparens : (binary op a b).needsParens level =
          (binary op a b).needsParens (level + 1) := by
        rw [needsParens, needsParens, decide_eq_decide]
        omega
      rw [operand, operand, hparens]
  | _ => exact .inl rfl

/-- An operand at the level can be told from the texts that begin with it. -/
def Readable (level : Nat) (e : Expr) : Prop :=
  ∀ e' r r', e'.wellNamed = true → Stops level r → Stops level r' →
    e.operand level ++ r = e'.operand level ++ r' → e = e' ∧ r = r'

/-- The expression can be told from the texts that begin with its text. -/
def ReadableText (e : Expr) : Prop :=
  ∀ e' r r', e'.wellNamed = true → Stops 0 r → Stops 0 r' →
    e.text.toList ++ r = e'.text.toList ++ r' → e = e' ∧ r = r'

/-- A readable operand and what follows it, read one level looser: either this is the whole operand,
or it is the left operand of an operator of just that level. -/
theorem Readable.left {level : Nat} {a e : Expr} {r r' : List Char} (ha : a.Readable (level + 1))
    (he : e.wellNamed = true) (hr : Stops (level + 1) r) (hr' : Stops level r')
    (h : a.operand (level + 1) ++ r = e.operand level ++ r') :
    (a = e ∧ r = r') ∨ ∃ op b, op.level = level + 1 ∧ e = binary op a b ∧
      r = op.before (b.operand (level + 1) ++ r') := by
  rcases operand_succ level e with hs | ⟨op, a', b, rfl, hop⟩
  · rw [hs] at h
    exact .inl (ha e r r' he hr (hr'.mono (Nat.le_succ level)) h)
  · rw [wellNamed, Bool.and_eq_true] at he
    rw [operand_binary (by omega), hop, List.append_assoc, op.before_append] at h
    obtain ⟨rfl, rfl⟩ := ha a' r _ he.1 hr (.op hop.le _) h
    exact .inr ⟨op, b, hop, rfl, rfl⟩

theorem Readable.of_succ {level : Nat} {e : Expr} (h : e.Readable (level + 1))
    (hs : e.operand level = e.operand (level + 1)) : e.Readable level := by
  intro e' r r' he' hr hr' heq
  rw [hs] at heq
  rcases h.left he' (hr.mono (Nat.le_succ level)) hr' heq with hd | ⟨op, b, hop, -, rfl⟩
  · exact hd
  · -- the operator that follows would be too tight
    have := hr.level_le
    omega

theorem Readable.of_le {level level' : Nat} {e : Expr} (h : e.Readable level')
    (hle : level ≤ level')
    (hs : ∀ k, level ≤ k → k < level' → e.operand k = e.operand (k + 1)) : e.Readable level := by
  induction hle using Nat.decreasingInduction with
  | of_succ k hk ih =>
    exact (ih fun j hj hlt => hs j (by omega) hlt).of_succ (hs k le_rfl hk)
  | self => exact h

/-- Operators of one level: the left operand ends at the first of them. -/
theorem readable_binary {level : Nat} {op : BinOp} {a b : Expr} (hop : op.level = level + 1)
    (ha : a.Readable (level + 1)) (hb : b.Readable (level + 1)) :
    (binary op a b).Readable level := by
  intro e r r' he hr hr' h
  rw [operand_binary (by omega), hop, List.append_assoc, op.before_append] at h
  rcases ha.left he (.op hop.le _) hr' h with ⟨-, rfl⟩ | ⟨op', b', -, rfl, hrest⟩
  · have := hr'.level_le
    omega
  · obtain ⟨rfl, hright⟩ := BinOp.before_inj hrest
    rw [wellNamed, Bool.and_eq_true] at he
    obtain ⟨rfl, rfl⟩ := hb b' r r' he.2 (hr.mono (Nat.le_succ level))
      (hr'.mono (Nat.le_succ level)) hright
    exact ⟨rfl, rfl⟩

/-! ## The tightest operands -/

/-- What an operand of a negation can look like. -/
inductive Shape where
  | group
  | negation
  | number
  | word

def shape : Expr → Shape
  | .bool _ => .word
  | .int _ => .number
  | .var _ => .word
  | .old _ => .word
  | .not _ => .negation
  | .binary _ _ _ => .group
  | .app _ _ => .word
  | .quant _ _ _ => .group

def isNumberPart (c : Char) : Bool := c.isDigit || c == '-'

/-- The shape of the operands that begin with the character. -/
def Shape.ofStart? (c : Char) : Option Shape :=
  if c = '(' then some .group
  else if c = '!' then some .negation
  else if isNumberPart c then some .number
  else if isNameStart c then some .word
  else none

theorem Shape.ofStart?_of_isNumberPart {c : Char} (hc : isNumberPart c = true) :
    ofStart? c = some .number := by
  have hopen : c ≠ '(' := fun he => absurd (he ▸ hc) (by decide)
  have hbang : c ≠ '!' := fun he => absurd (he ▸ hc) (by decide)
  rw [ofStart?, if_neg hopen, if_neg hbang, if_pos hc]

theorem Shape.ofStart?_of_isNameStart {c : Char} (hc : isNameStart c = true) :
    ofStart? c = some .word := by
  have hopen : c ≠ '(' := fun he => absurd (he ▸ hc) (by decide)
  have hbang : c ≠ '!' := fun he => absurd (he ▸ hc) (by decide)
  have hminus : c ≠ '-' := fun he => absurd (he ▸ hc) (by decide)
  have hdigit : c.isDigit = false := by
    simpa using (Bool.and_eq_true_iff.mp hc).2
  rw [ofStart?, if_neg hopen, if_neg hbang, if_neg (by simp [isNumberPart, hdigit, hminus]),
    if_pos hc]

/-! ### Numbers -/

theorem toList_text_int (n : Int) : (Expr.int n).text.toList = n.repr.toList := by
  rw [text, Int.toString_eq_repr]

theorem isNumberPart_of_mem {n : Int} {c : Char} (hc : c ∈ n.repr.toList) :
    isNumberPart c = true := by
  have hdigits : ∀ m : Nat, c ∈ m.repr.toList → isNumberPart c = true := by
    intro m hm
    rw [Nat.toList_repr] at hm
    rw [isNumberPart, Nat.isDigit_of_mem_toDigits (by decide) (by decide) hm, Bool.true_or]
  rw [Int.repr_eq_if] at hc
  split at hc
  · exact hdigits _ hc
  · rw [String.toList_append, List.mem_append] at hc
    rcases hc with hc | hc
    · obtain rfl := List.mem_singleton.mp hc
      decide
    · exact hdigits _ hc

theorem toList_repr_ne_nil (n : Int) : n.repr.toList ≠ [] := by
  rw [Int.repr_eq_if]
  split
  · rw [Nat.toList_repr]
    exact Nat.toDigits_ne_nil
  · rw [String.toList_append]
    exact List.append_ne_nil_of_left_ne_nil (by decide) _

theorem repr_injective {m n : Int} (h : m.repr = n.repr) : m = n := by
  have hnat : ∀ {k l : Nat}, k.repr = l.repr → k = l := fun h => Fresh.toString_injective h
  -- a number without a sign begins with a digit
  have hsign : ∀ {k : Nat} {s : String}, k.repr ≠ "-" ++ s := by
    intro k s he
    refine Fresh.notMem_toDigits (c := '-') (by decide) k ?_
    rw [← Nat.toList_repr, he, String.toList_append]
    exact List.mem_append_left _ (by decide)
  cases m with
  | ofNat k =>
    cases n with
    | ofNat l => rw [hnat h]
    | negSucc l => exact absurd h hsign
  | negSucc k =>
    cases n with
    | ofNat l => exact absurd h.symm hsign
    | negSucc l => rw [Nat.succ.inj (hnat ((String.append_right_inj "-").mp h))]

/-- Numbers can be told from the texts that begin with them. -/
theorem number_reading {m n : Int} {r r' : List Char} {level : Nat} (hr : Stops level r)
    (hr' : Stops level r') (h : m.repr.toList ++ r = n.repr.toList ++ r') : m = n ∧ r = r' := by
  obtain ⟨hmn, rfl⟩ := List.append_inj_of_all (fun _ => isNumberPart_of_mem)
    (fun _ => isNumberPart_of_mem) (hr.head?_eq_false (by decide))
    (hr'.head?_eq_false (by decide)) h
  exact ⟨repr_injective (String.toList_inj.mp hmn), rfl⟩

/-! ### Words -/

/-- The first word of an expression that begins with one. -/
def word : Expr → String
  | .bool b => if b then "true" else "false"
  | .var x => x
  | .old _ => "old"
  | .app f _ => f
  | _ => ""

/-- What stands in parentheses behind the first word. -/
def arguments? : Expr → Option (List Expr)
  | .old e => some [e]
  | .app _ args => some args
  | _ => none

def argumentsText : Option (List Expr) → List Char
  | none => []
  | some args => '(' :: ((commaSeparated (args.map text)).toList ++ [')'])

theorem endsWord_argumentsText {args? : Option (List Expr)} {r : List Char} (hr : EndsWord r) :
    EndsWord (argumentsText args? ++ r) := by
  cases args? with
  | none => exact hr
  | some args => exact endsWord_cons (by decide) _

theorem operand_of_word {level : Nat} {e : Expr} (h : e.shape = .word) :
    e.operand level = e.word.toList ++ argumentsText e.arguments? := by
  cases e with
  | bool b => simp [operand, needsParens, text, word, arguments?, argumentsText]
  | var x => simp [operand, needsParens, text, word, arguments?, argumentsText]
  | old e =>
    simp [operand, needsParens, text, word, arguments?, argumentsText, inParens, commaSeparated]
  | app f args =>
    simp [operand, needsParens, text, textOfList_eq, word, arguments?, argumentsText, inParens]
  | _ => cases h

theorem isWord_word {e : Expr} (he : e.wellNamed = true) (h : e.shape = .word) :
    isWord e.word = true := by
  cases e with
  | bool b => cases b <;> decide
  | var x => exact isWord_of_isName he
  | old e => exact (by decide : isWord "old" = true)
  | app f args => exact isWord_of_isName (Bool.and_eq_true_iff.mp he).1
  | _ => cases h

theorem word_ne_keyword {e : Expr} (he : e.wellNamed = true) (h : e.shape = .word)
    (q : Quantifier) : e.word ≠ q.keyword := by
  have hname : ∀ {s : String}, isName s = true → s ≠ q.keyword := by
    rintro s hs rfl
    exact notMem_reserved hs (by cases q <;> decide)
  cases e with
  | bool b => cases b <;> cases q <;> decide
  | var x => exact hname he
  | old e =>
    cases q with
    | all => exact (by decide : "old" ≠ "forall")
    | some => exact (by decide : "old" ≠ "exists")
  | app f args => exact hname (Bool.and_eq_true_iff.mp he).1
  | _ => cases h

/-- The expression with a first word and arguments. -/
def ofWord (s : String) : Option (List Expr) → Expr
  | none => if s = "true" then .bool true else if s = "false" then .bool false else .var s
  | some [e] => if s = "old" then .old e else .app s [e]
  | some args => .app s args

/-- Reserved words tell which expressions begin with them, all others are names. -/
theorem ofWord_word {e : Expr} (he : e.wellNamed = true) (h : e.shape = .word) :
    ofWord e.word e.arguments? = e := by
  have hne : ∀ {s t : String}, isName s = true → t ∈ reserved → s ≠ t := by
    rintro s t hs ht rfl
    exact notMem_reserved hs ht
  cases e with
  | bool b => cases b <;> rfl
  | var x => exact (if_neg (hne he (by decide))).trans (if_neg (hne he (by decide)))
  | old e => rfl
  | app f args =>
    have hold : f ≠ "old" := hne (Bool.and_eq_true_iff.mp he).1 (by decide)
    rw [word, arguments?]
    match args with
    | [] => rfl
    | [e] => rw [ofWord, if_neg hold]
    | _ :: _ :: _ => rfl
  | _ => cases h

/-! ### All shapes -/

theorem operand_of_group {e : Expr} (h : e.shape = .group) :
    e.operand negationLevel = '(' :: (e.text.toList ++ [')']) := by
  refine operand_of_needsParens ?_
  cases e with
  | binary op a b => exact decide_eq_true op.level_lt_negationLevel.le
  | quant q vars body => rfl
  | _ => cases h

/-- The first character of an operand of the tightest kind tells its shape. -/
theorem exists_operand_cons {e : Expr} (he : e.wellNamed = true) : ∃ c cs,
    e.operand negationLevel = c :: cs ∧ Shape.ofStart? c = some e.shape := by
  cases hs : e.shape with
  | group => exact ⟨_, _, operand_of_group hs, rfl⟩
  | negation =>
    cases e with
    | not a => exact ⟨_, _, toList_text_not a, rfl⟩
    | _ => cases hs
  | number =>
    cases e with
    | int n =>
      obtain ⟨c, cs, hcs⟩ := List.exists_cons_of_ne_nil (toList_repr_ne_nil n)
      refine ⟨c, cs, ?_, Shape.ofStart?_of_isNumberPart (isNumberPart_of_mem (n := n) ?_)⟩
      · rw [operand_of_not_needsParens rfl, toList_text_int, hcs]
      · rw [hcs]
        exact List.mem_cons_self
    | _ => cases hs
  | word =>
    obtain ⟨c, cs, hcs, hc⟩ := exists_cons_of_isWord (isWord_word he hs)
    refine ⟨c, cs ++ argumentsText e.arguments?, ?_, Shape.ofStart?_of_isNameStart hc⟩
    rw [operand_of_word hs, hcs, List.cons_append]

theorem shape_eq {e f : Expr} {r r' : List Char} (he : e.wellNamed = true)
    (hf : f.wellNamed = true)
    (h : e.operand negationLevel ++ r = f.operand negationLevel ++ r') : e.shape = f.shape := by
  obtain ⟨c, cs, hc, hce⟩ := exists_operand_cons he
  obtain ⟨d, ds, hd, hdf⟩ := exists_operand_cons hf
  rw [hc, hd] at h
  obtain rfl : c = d := (List.cons.inj h).1
  exact Option.some_inj.mp (hce.symm.trans hdf)

/-- What stands leftmost in an operand is one of the tightest kind. -/
theorem exists_leftmost (e : Expr) (he : e.wellNamed = true) (level : Nat) :
    ∃ (a : Expr) (rest : List Char), a.wellNamed = true ∧
      e.operand level = a.operand negationLevel ++ rest ∧
      ∀ r, Stops negationLevel r → Stops negationLevel (rest ++ r) := by
  by_cases hsame : e.operand level = e.operand negationLevel
  · exact ⟨e, [], he, by rw [hsame, List.append_nil], fun r hr => hr⟩
  · cases e with
    | binary op a b =>
      have hlt : level < op.level := by
        by_contra hle
        refine hsame ?_
        rw [operand_of_group rfl, operand_of_needsParens (by simpa [needsParens] using hle)]
      rw [wellNamed, Bool.and_eq_true] at he
      obtain ⟨c, rest, hc, heq, hrest⟩ := exists_leftmost a he.1 op.level
      refine ⟨c, rest ++ op.before (b.operand op.level), hc, ?_, fun r _ => ?_⟩
      · rw [operand_binary hlt, heq, List.append_assoc]
      · rw [List.append_assoc, op.before_append]
        exact hrest _ (.op op.level_lt_negationLevel.le _)
    | _ => exact absurd rfl hsame

/-- No operand begins with the keyword of a quantifier. -/
theorem operand_append_ne_keyword {e : Expr} (he : e.wellNamed = true) (level : Nat)
    (q : Quantifier) {r : List Char} (hr : Stops negationLevel r) (r' : List Char) :
    e.operand level ++ r ≠ q.keyword.toList ++ ' ' :: r' := by
  intro h
  obtain ⟨a, rest, ha, heq, hrest⟩ := exists_leftmost e he level
  obtain ⟨c, cs, hc, hshape⟩ := exists_operand_cons ha
  rw [heq, List.append_assoc] at h
  obtain ⟨d, ds, hd, hstart⟩ := exists_cons_of_isWord q.isWord_keyword
  -- the keyword begins like a word, so it would be the word
  have hword : a.shape = .word := by
    rw [hc, hd] at h
    obtain rfl : c = d := (List.cons.inj h).1
    rw [Shape.ofStart?_of_isNameStart hstart] at hshape
    exact (Option.some_inj.mp hshape).symm
  rw [operand_of_word hword, List.append_assoc] at h
  exact word_ne_keyword ha hword q (word_reading (isWord_word ha hword) q.isWord_keyword
    (endsWord_argumentsText (hrest r hr).endsWord) (endsWord_cons (by decide) _) h).1

theorem text_append_ne_close {e : Expr} (he : e.wellNamed = true) (r r' : List Char) :
    e.text.toList ++ r ≠ ')' :: r' := by
  intro h
  by_cases hparens : e.needsParens 0 = true
  · obtain ⟨q, vars, body, rfl⟩ := exists_quant_of_needsParens hparens
    rw [toList_text_quant, List.append_assoc] at h
    exact word_append_ne q.isWord_keyword (by decide) _ _ h
  · obtain ⟨a, rest, ha, heq, -⟩ := exists_leftmost e he 0
    obtain ⟨c, cs, hc, hshape⟩ := exists_operand_cons ha
    rw [← operand_of_not_needsParens (by simpa using hparens), heq, hc] at h
    obtain rfl : c = ')' := (List.cons.inj h).1
    cases hshape

/-! ## From the parts to the whole -/

theorem argumentsText_reading {args? args'? : Option (List Expr)} {level : Nat} {r r' : List Char}
    (hargs : ∀ args, args? = some args → ∀ a ∈ args, a.wellNamed = true ∧ a.ReadableText)
    (hargs' : ∀ args, args'? = some args → ∀ a ∈ args, a.wellNamed = true) (hr : Stops level r)
    (hr' : Stops level r') (h : argumentsText args? ++ r = argumentsText args'? ++ r') :
    args? = args'? ∧ r = r' := by
  -- behind a word without arguments stands no parenthesis
  have hopen : ∀ {t : List Char}, ¬ Stops level ('(' :: t) :=
    fun hs => absurd (hs.mem_of_head? rfl) (by decide)
  cases args? with
  | none =>
    cases args'? with
    | none => exact ⟨rfl, h⟩
    | some args' =>
      obtain rfl : r = _ := h
      exact absurd hr hopen
  | some args =>
    cases args'? with
    | none =>
      obtain rfl : _ = r' := h
      exact absurd hr' hopen
    | some args' =>
      simp only [argumentsText, List.cons_append, List.append_assoc, List.nil_append] at h
      obtain ⟨rfl, rfl⟩ := commaSeparated_reading (Stops 0) .comma (by decide) .close
        (fun a ha b hb r r' hr hr' => (hargs args rfl a ha).2 b r r' (hargs' args' rfl b hb) hr hr')
        (fun a ha => text_append_ne_close (hargs args rfl a ha).1)
        (fun b hb => text_append_ne_close (hargs' args' rfl b hb)) (List.cons.inj h).2
      exact ⟨rfl, rfl⟩

theorem mem_parts_of_mem_arguments {e a : Expr} {args : List Expr} (h : e.arguments? = some args)
    (ha : a ∈ args) : a ∈ e.parts := by
  cases e with
  | old e =>
    obtain rfl := Option.some_inj.mp h
    exact ha
  | app f args' =>
    obtain rfl := Option.some_inj.mp h
    exact ha
  | _ => cases h

/-- The tightest operands, from their parts, or in parentheses from their own text. -/
theorem readable_negationLevel {e : Expr} (he : e.wellNamed = true)
    (hparts : ∀ c ∈ e.parts, c.Readable negationLevel ∧ c.ReadableText)
    (hgroup : e.shape = .group → e.ReadableText) : e.Readable negationLevel := by
  intro f r r' hf hr hr' h
  have hshape := shape_eq he hf h
  cases hs : e.shape with
  | group =>
    rw [hs] at hshape
    rw [operand_of_group hs, operand_of_group hshape.symm] at h
    simp only [List.cons_append, List.append_assoc, List.nil_append] at h
    obtain ⟨rfl, hrest⟩ := hgroup hs f _ _ hf (.close r) (.close r') (List.cons.inj h).2
    exact ⟨rfl, (List.cons.inj hrest).2⟩
  | negation =>
    rw [hs] at hshape
    cases e with
    | not a =>
      cases f with
      | not b =>
        rw [operand_of_not_needsParens rfl, operand_of_not_needsParens rfl, toList_text_not,
          toList_text_not] at h
        obtain ⟨rfl, rfl⟩ := (hparts a (List.mem_singleton_self a)).1 b r r' hf hr hr'
          (List.cons.inj h).2
        exact ⟨rfl, rfl⟩
      | _ => cases hshape
    | _ => cases hs
  | number =>
    rw [hs] at hshape
    cases e with
    | int m =>
      cases f with
      | int n =>
        rw [operand_of_not_needsParens rfl, operand_of_not_needsParens rfl, toList_text_int,
          toList_text_int] at h
        obtain ⟨rfl, rfl⟩ := number_reading hr hr' h
        exact ⟨rfl, rfl⟩
      | _ => cases hshape
    | _ => cases hs
  | word =>
    rw [hs] at hshape
    rw [operand_of_word hs, operand_of_word hshape.symm, List.append_assoc, List.append_assoc] at h
    obtain ⟨hword, h⟩ := word_reading (isWord_word he hs) (isWord_word hf hshape.symm)
      (endsWord_argumentsText hr.endsWord) (endsWord_argumentsText hr'.endsWord) h
    obtain ⟨hargs, rfl⟩ := argumentsText_reading
      (fun args ha a hm =>
        have hp := mem_parts_of_mem_arguments ha hm
        ⟨wellNamed_of_mem_parts he hp, (hparts a hp).2⟩)
      (fun args ha a hm => wellNamed_of_mem_parts hf (mem_parts_of_mem_arguments ha hm)) hr hr' h
    refine ⟨?_, rfl⟩
    rw [← ofWord_word he hs, hword, hargs, ofWord_word hf hshape.symm]

/-- The body of a quantifier reaches up to a comma, a closing parenthesis or the end. -/
theorem readableText_quant {q : Quantifier} {vars : List Variable} {body : Expr}
    (he : (quant q vars body).wellNamed = true) (hbody : body.ReadableText) :
    (quant q vars body).ReadableText := by
  intro f r r' hf hr hr' h
  by_cases hquant : f.needsParens 0 = true
  · obtain ⟨q', vars', body', rfl⟩ := exists_quant_of_needsParens hquant
    rw [wellNamed, Bool.and_eq_true, List.all_eq_true] at he hf
    simp only [toList_text_quant, List.cons_append, List.append_assoc] at h
    obtain ⟨hq, hrest⟩ := word_reading q.isWord_keyword q'.isWord_keyword
      (endsWord_cons (by decide) _) (endsWord_cons (by decide) _) h
    obtain ⟨rfl, hcolons⟩ := commaSeparated_reading EndsWord (endsWord_cons (by decide))
      (by decide) (endsWord_cons (by decide))
      (fun v hv w hw r r' hr hr' => Variable.text_reading (he.1 v hv) (hf.1 w hw) hr hr')
      (fun v hv => Variable.text_append_ne (he.1 v hv))
      (fun w hw => Variable.text_append_ne (hf.1 w hw)) (List.cons.inj hrest).2
    obtain ⟨rfl, rfl⟩ := hbody body' r r' hf.2 hr hr'
      (List.append_cancel_left (show [':', ':', ' '] ++ _ = [':', ':', ' '] ++ _ from hcolons))
    rw [Quantifier.keyword_injective hq]
    exact ⟨rfl, rfl⟩
  · have hoperand : f.operand 0 = f.text.toList :=
      operand_of_not_needsParens (by simpa using hquant)
    rw [toList_text_quant, List.append_assoc, ← hoperand] at h
    exact absurd h.symm (operand_append_ne_keyword hf 0 q (hr'.mono (Nat.zero_le _)) _)

/-- Without a quantifier, the text is that of the loosest operand. -/
theorem Readable.text {e : Expr} (h : e.Readable 0) (he : e.wellNamed = true)
    (hs : e.needsParens 0 = false) : e.ReadableText := by
  intro f r r' hf hr hr' heq
  rw [← operand_of_not_needsParens hs] at heq
  by_cases hquant : f.needsParens 0 = true
  · obtain ⟨q, vars, body, rfl⟩ := exists_quant_of_needsParens hquant
    rw [toList_text_quant, List.append_assoc] at heq
    exact absurd heq (operand_append_ne_keyword he 0 q (hr.mono (Nat.zero_le _)) _)
  · rw [← operand_of_not_needsParens (by simpa using hquant)] at heq
    exact h f r r' hf hr hr' heq

/-- Readable parts make an expression readable. -/
theorem readable_of_parts {e : Expr} (he : e.wellNamed = true)
    (hparts : ∀ c ∈ e.parts, (∀ level ≤ negationLevel, c.Readable level) ∧ c.ReadableText) :
    (∀ level ≤ negationLevel, e.Readable level) ∧ e.ReadableText := by
  have htight := readable_negationLevel he fun c hc =>
    ⟨(hparts c hc).1 negationLevel le_rfl, (hparts c hc).2⟩
  cases e with
  | binary op a b =>
    -- first the levels below the operator, from the operands, then those above, from the text
    have ha := (hparts a (by simp [parts])).1
    have hb := (hparts b (by simp [parts])).1
    obtain ⟨level, hop⟩ : ∃ level, op.level = level + 1 := Nat.exists_eq_add_one.mpr op.one_le_level
    have hneg := op.level_lt_negationLevel
    have hown := readable_binary hop (ha (level + 1) (by omega)) (hb (level + 1) (by omega))
    have hbelow : ∀ k ≤ level, (binary op a b).Readable k := by
      intro k hk
      refine hown.of_le hk fun j hj hlt => ?_
      rw [operand_binary (by omega), operand_binary (by omega)]
    have htext : (binary op a b).ReadableText :=
      (hbelow 0 (Nat.zero_le _)).text he (by simp [needsParens, hop])
    refine ⟨fun k hk => ?_, htext⟩
    by_cases hle : k ≤ level
    · exact hbelow k hle
    · refine (htight fun _ => htext).of_le hk fun j hj _ => ?_
      rw [operand_of_needsParens (by simp [needsParens]; omega),
        operand_of_needsParens (by simp [needsParens]; omega)]
  | quant q vars body =>
    have htext := readableText_quant he (hparts body (List.mem_singleton_self body)).2
    exact ⟨fun k hk => (htight fun _ => htext).of_le hk fun _ _ _ => rfl, htext⟩
  | _ =>
    have hall : ∀ k ≤ negationLevel, Readable k _ :=
      fun k hk => (htight fun hgroup => by cases hgroup).of_le hk fun _ _ _ => rfl
    exact ⟨hall, (hall 0 (Nat.zero_le _)).text he rfl⟩

/-- **Every expression can be told from the texts that begin with it**, at all levels and as a
whole. -/
theorem readable (e : Expr) (he : e.wellNamed = true) :
    (∀ level ≤ negationLevel, e.Readable level) ∧ e.ReadableText :=
  readable_of_parts he fun c hc => readable c (wellNamed_of_mem_parts he hc)
termination_by sizeOf e
decreasing_by exact sizeOf_lt_of_mem_parts hc

/-- **Printed expressions are unambiguous**: those with the same text are the same. -/
theorem text_eq_iff {e f : Expr} (he : e.wellNamed = true) (hf : f.wellNamed = true) :
    e.text = f.text ↔ e = f := by
  constructor
  · intro h
    exact ((readable e he).2 f [] [] hf .nil .nil (by rw [h])).1
  · rintro rfl
    rfl

end Expr

namespace Counter

/-- The quantifier of `closedBody` ends before the conjunction, that of `openBody` takes it in. -/
def closedBody : Expr :=
  .and (.quant .some [{ name := "m", type := .map .int .bool, domain? := some "tid" }]
    (.binary .lt (.app "size" [.var "m"]) (.int (-1)))) (.var "done")

def openBody : Expr :=
  .quant .some [{ name := "m", type := .map .int .bool, domain? := some "tid" }]
    (.and (.binary .lt (.app "size" [.var "m"]) (.int (-1))) (.var "done"))

theorem text_eq_iff_bodies : closedBody.wellNamed = true ∧ openBody.wellNamed = true ∧
    openBody.text = "exists \x7b:linear \"tid\"\x7d m: [int]bool :: size(m) < -1 && done" ∧
    closedBody.text ≠ openBody.text := by
  have hclosed : closedBody.wellNamed = true := by decide
  have hopen : openBody.wellNamed = true := by decide
  have hne : closedBody ≠ openBody := nofun
  exact ⟨hclosed, hopen, by decide, fun h => hne ((Expr.text_eq_iff hclosed hopen).mp h)⟩

end Counter

end LayerCheck
