import LayerCheck.Json.Token

/-!
# Options

A single switch, read from JSON: from an object, in which other fields are passed over, or from an
array that gives the fields by position. A field that is missing keeps its default.
-/

namespace LayerCheck

structure Options where
  /-- Interference is taken to be harmless instead of being checked. -/
  trustNoninterference : Bool := false
deriving DecidableEq, Repr, Inhabited

namespace Options

open Json

def fieldName : String := "trust_noninterference"

inductive Bracket where
  | object
  | array
deriving DecidableEq, Repr

/-- What the next token has to be. -/
inductive Expected where
  /-- The start of the options. -/
  | start
  | value
  /-- The value of the field. -/
  | flag
  /-- A key, after a comma. -/
  | key
  /-- A key, or the end of an object without any. -/
  | firstKey
  /-- A value, or the end of an array without any. -/
  | firstValue
  /-- The colon after a key; the field follows if `known`. -/
  | colon (known : Bool)
  /-- A comma or the end of what is open. -/
  | next
deriving DecidableEq, Repr

structure State where
  expected : Expected
  /-- What is open, innermost first. -/
  brackets : List Bracket := []
  found? : Option Bool := none
deriving DecidableEq, Repr

namespace State

def expect (s : State) (e : Expected) : State := { s with expected := e }

def enter (s : State) (b : Bracket) (e : Expected) : State :=
  { s with brackets := b :: s.brackets, expected := e }

def leave (s : State) : State := { s with brackets := s.brackets.drop 1, expected := .next }

/-- Takes a key. The field may be given once; any other key is passed over, but has to be a text if
it belongs to the options themselves. -/
def takeKey (s : State) (items : List Item) : Option State :=
  if s.brackets = [.object] then do
    let key ← decode? items
    if key = fieldName.toList then
      if s.found?.isSome then none else return s.expect (.colon true)
    else return s.expect (.colon false)
  else some (s.expect (.colon false))

def takeValue (s : State) : Token → Option State
  | .string _ => some (s.expect .next)
  | .bool _ => some (s.expect .next)
  | .other => some (s.expect .next)
  | .openBrace => some (s.enter .object .firstKey)
  | .openBracket => some (s.enter .array .firstValue)
  | _ => none

def takeFlag (s : State) : Token → Option State
  | .bool b => some { s with found? := some b, expected := .next }
  | _ => none

/-- The values of an array are passed over, but for the one at the top, which is the field. -/
def takeFirstValue (s : State) : Token → Option State
  | .closeBracket => some s.leave
  | t => if s.brackets = [.array] then s.takeFlag t else s.takeValue t

def takeNext (s : State) (t : Token) : Option State :=
  match s.brackets, t with
  | .object :: _, .comma => some (s.expect .key)
  | .object :: _, .closeBrace => some s.leave
  -- there is one field only, so the array at the top ends after one value
  | .array :: _ :: _, .comma => some (s.expect .value)
  | .array :: _, .closeBracket => some s.leave
  | _, _ => none

def step (s : State) (t : Token) : Option State :=
  match s.expected, t with
  | .start, .openBrace => some (s.enter .object .firstKey)
  | .start, .openBracket => some (s.enter .array .firstValue)
  | .firstKey, .closeBrace => some s.leave
  | .firstKey, .string items => s.takeKey items
  | .key, .string items => s.takeKey items
  | .colon known, .colon => some (s.expect (if known then .flag else .value))
  | .value, t => s.takeValue t
  | .flag, t => s.takeFlag t
  | .firstValue, t => s.takeFirstValue t
  | .next, t => s.takeNext t
  | _, _ => none

end State

/-- The options in a text; none if it is no JSON or does not give options. -/
def parse? (text : String) : Option Options := do
  let tokens ← tokens? text.toList
  let s ← tokens.foldlM State.step { expected := .start }
  if s.expected = .next ∧ s.brackets = [] then
    return { trustNoninterference := s.found?.getD false }
  else none

end Options

end LayerCheck
