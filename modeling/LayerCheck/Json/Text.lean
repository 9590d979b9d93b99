/-!
# Strings in JSON

A string is read as a list of items: characters that stand for themselves and 16-bit units given by
number. Units from `D800` to `DFFF` only stand for a character in pairs, so that not every string
that may be written stands for a text.
-/

namespace LayerCheck.Json

inductive Item where
  | char (c : Char)
  | unit (n : Nat)
deriving DecidableEq, Repr

def hexDigit? (c : Char) : Option Nat :=
  if c.isDigit then some (c.toNat - '0'.toNat)
  else if 'a' ≤ c ∧ c ≤ 'f' then some (c.toNat - 'a'.toNat + 10)
  else if 'A' ≤ c ∧ c ≤ 'F' then some (c.toNat - 'A'.toNat + 10)
  else none

def hexNumber? (cs : List Char) : Option Nat :=
  cs.foldlM (fun n c => (hexDigit? c).map (16 * n + ·)) 0

/-- The character that a letter stands for after a backslash. -/
def escape? : Char → Option Char
  | '"' => some '"'
  | '\\' => some '\\'
  | '/' => some '/'
  | 'b' => some '\x08'
  | 'f' => some '\x0c'
  | 'n' => some '\n'
  | 'r' => some '\r'
  | 't' => some '\t'
  | _ => none

/-- Reads up to the closing quote, and gives what comes after it. -/
def items? : List Char → Option (List Item × List Char)
  | '"' :: cs => some ([], cs)
  | '\\' :: 'u' :: a :: b :: c :: d :: cs => do
    let n ← hexNumber? [a, b, c, d]
    let (items, rest) ← items? cs
    return (.unit n :: items, rest)
  | '\\' :: e :: cs => do
    let c ← escape? e
    let (items, rest) ← items? cs
    return (.char c :: items, rest)
  | c :: cs =>
    if c < ' ' then none
    else (items? cs).map fun (items, rest) => (.char c :: items, rest)
  | [] => none

theorem length_items?_lt {cs rest : List Char} {items : List Item}
    (h : items? cs = some (items, rest)) : rest.length < cs.length := by
  fun_induction items? cs generalizing items rest with
  | case1 cs => simp_all
  | case2 a b c d cs ih =>
    simp only [Option.bind_eq_bind, Option.pure_def, Option.bind_eq_some_iff] at h
    obtain ⟨_, _, ⟨_, _⟩, hr, he⟩ := h
    have := ih hr
    cases he
    simp only [List.length_cons]
    omega
  | case3 e cs _ ih =>
    simp only [Option.bind_eq_bind, Option.pure_def, Option.bind_eq_some_iff] at h
    obtain ⟨_, _, ⟨_, _⟩, hr, he⟩ := h
    have := ih hr
    cases he
    simp only [List.length_cons]
    omega
  | case4 => cases h
  | case5 c cs _ _ _ _ ih =>
    obtain ⟨_, hr, he⟩ := Option.map_eq_some_iff.1 h
    have := ih hr
    cases he
    simp only [List.length_cons]
    omega
  | case6 => simp at h

/-- The text of the items, if no half of a pair stands alone. -/
def decode? : List Item → Option (List Char)
  | [] => some []
  | .char c :: items => (decode? items).map (c :: ·)
  | .unit hi :: .unit lo :: items =>
    if 0xD800 ≤ hi ∧ hi < 0xDC00 then
      if 0xDC00 ≤ lo ∧ lo < 0xE000 then
        (decode? items).map (Char.ofNat (0x10000 + (hi - 0xD800) * 0x400 + (lo - 0xDC00)) :: ·)
      else none
    else if 0xDC00 ≤ hi ∧ hi < 0xE000 then none
    else (decode? (.unit lo :: items)).map (Char.ofNat hi :: ·)
  | .unit n :: items =>
    if 0xD800 ≤ n ∧ n < 0xE000 then none else (decode? items).map (Char.ofNat n :: ·)

end LayerCheck.Json
