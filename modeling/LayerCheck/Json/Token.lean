import LayerCheck.Json.Text

/-!
# Tokens of JSON

Strings keep their items, because a string may be well written and yet stand for no text. Numbers
and `null` are only checked.
-/

namespace LayerCheck.Json

inductive Token where
  | openBrace
  | closeBrace
  | openBracket
  | closeBracket
  | colon
  | comma
  | string (items : List Item)
  | bool (b : Bool)
  /-- A number or `null`. -/
  | other
deriving DecidableEq, Repr

def isBlank (c : Char) : Bool := c = ' ' || c = '\n' || c = '\t' || c = '\r'

def isNumberChar (c : Char) : Bool :=
  c.isDigit || c = '-' || c = '+' || c = '.' || c = 'e' || c = 'E'

/-- One or more digits, and nothing else. -/
def isDigits (cs : List Char) : Bool := !cs.isEmpty && cs.all Char.isDigit

/-- Nothing, or the exponent of a number. -/
def isExponent : List Char → Bool
  | [] => true
  | e :: cs =>
    (e = 'e' || e = 'E') &&
      match cs with
      | '+' :: ds => isDigits ds
      | '-' :: ds => isDigits ds
      | ds => isDigits ds

/-- What may follow the digits before the point. -/
def isFraction : List Char → Bool
  | '.' :: cs => isDigits (cs.takeWhile Char.isDigit) && isExponent (cs.dropWhile Char.isDigit)
  | cs => isExponent cs

/-- A number without its sign. It starts with `0` only if that is all there is before the point. -/
def isMagnitude : List Char → Bool
  | '0' :: cs => isFraction cs
  | c :: cs => c.isDigit && isFraction (cs.dropWhile Char.isDigit)
  | [] => false

def isNumber : List Char → Bool
  | '-' :: cs => isMagnitude cs
  | cs => isMagnitude cs

def punctuation? : Char → Option Token
  | '\x7b' => some .openBrace
  | '\x7d' => some .closeBrace
  | '[' => some .openBracket
  | ']' => some .closeBracket
  | ':' => some .colon
  | ',' => some .comma
  | _ => none

def word? : List Char → Option Token
  | ['t', 'r', 'u', 'e'] => some (.bool true)
  | ['f', 'a', 'l', 's', 'e'] => some (.bool false)
  | ['n', 'u', 'l', 'l'] => some .other
  | _ => none

/-- The token at the start of the text, with what comes after it. -/
def token? (c : Char) (cs : List Char) : Option (Token × List Char) :=
  if c = '"' then (items? cs).map fun (items, rest) => (.string items, rest)
  else if c.isAlpha then
    (word? (c :: cs.takeWhile Char.isAlpha)).map (·, cs.dropWhile Char.isAlpha)
  else if isNumberChar c then
    if isNumber (c :: cs.takeWhile isNumberChar) then some (.other, cs.dropWhile isNumberChar)
    else none
  else (punctuation? c).map (·, cs)

theorem length_token?_le {c : Char} {cs rest : List Char} {t : Token}
    (h : token? c cs = some (t, rest)) : rest.length ≤ cs.length := by
  unfold token? at h
  split at h
  · obtain ⟨⟨items, r⟩, hi, he⟩ := Option.map_eq_some_iff.1 h
    cases he
    exact Nat.le_of_lt (length_items?_lt hi)
  · split at h
    · obtain ⟨_, _, he⟩ := Option.map_eq_some_iff.1 h
      cases he
      exact (List.dropWhile_sublist _).length_le
    · split at h
      · split at h
        · cases h
          exact (List.dropWhile_sublist _).length_le
        · cases h
      · obtain ⟨_, _, he⟩ := Option.map_eq_some_iff.1 h
        cases he
        exact Nat.le_refl _

/-- The tokens of the text, blanks left out. -/
def tokens? : List Char → Option (List Token)
  | [] => some []
  | c :: cs =>
    if isBlank c then tokens? cs
    else
      match _ht : token? c cs with
      | none => none
      | some (t, rest) => (tokens? rest).map (t :: ·)
termination_by cs => cs.length
decreasing_by
  · simp
  · exact Nat.lt_succ_of_le (length_token?_le _ht)

end LayerCheck.Json
