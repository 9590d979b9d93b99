/-!
# Fresh names

The first name of a numbered family that is not taken. Only `taken.length + 1` numbers have to be
tried: that many different names cannot all be taken.
-/

namespace LayerCheck.Fresh

/-- The least number from `start` on whose name is not taken. -/
def number (name : Nat → String) (start : Nat) (taken : List String) : Nat :=
  ((List.range' start (taken.length + 1)).find? fun i => name i ∉ taken).getD start

/-- The first of `base#0`, `base#1`, … that is not taken. -/
def binder (base : String) (taken : List String) : String :=
  candidate (number candidate 0 taken)
where
  candidate (i : Nat) : String := base ++ "#" ++ toString i

end LayerCheck.Fresh
