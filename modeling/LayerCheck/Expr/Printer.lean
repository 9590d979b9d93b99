import LayerCheck.Expr.Basic

/-!
# Text of expressions

Binary operators are written infix. An operand stands in parentheses if it is a quantifier or if its
own operator binds no tighter than the one outside; negation binds tightest of all. Names are
written as they are, without quoting.
-/

namespace LayerCheck

/-- The items with a comma and a blank between them. -/
def commaSeparated (items : List String) : String := ", ".intercalate items

def inParens (s : String) : String := "(" ++ s ++ ")"

def Ty.text : Ty → String
  | .bool => "bool"
  | .int => "int"
  | .map domain range => "[" ++ domain.text ++ "]" ++ range.text
  | .named name => name

def Variable.text (v : Variable) : String :=
  (match v.domain? with
    | some d => "\x7b:linear \"" ++ d ++ "\"\x7d "
    | none => "") ++ v.name ++ ": " ++ v.type.text

namespace BinOp

def symbol : BinOp → String
  | and => "&&"
  | or => "||"
  | implies => "==>"
  | eq => "=="
  | ne => "!="
  | lt => "<"
  | le => "<="
  | gt => ">"
  | ge => ">="
  | add => "+"
  | sub => "-"

/-- How tightly the operator binds. -/
def level : BinOp → Nat
  | implies => 1
  | or => 2
  | and => 3
  | eq | ne | lt | le | gt | ge => 4
  | add | sub => 5

end BinOp

/-- The level of negation, above every binary operator. -/
def negationLevel : Nat := 6

def Quantifier.keyword : Quantifier → String
  | .all => "forall"
  | .some => "exists"

namespace Expr

/-- Whether the expression needs parentheses as an operand at a level. -/
def needsParens (level : Nat) : Expr → Bool
  | .binary op _ _ => op.level ≤ level
  | .quant _ _ _ => true
  | _ => false

mutual

def text : Expr → String
  | .bool b => if b then "true" else "false"
  | .int n => toString n
  | .var x => x
  | .old e => "old" ++ inParens e.text
  | .not e => "!" ++ (if e.needsParens negationLevel then inParens e.text else e.text)
  | .binary op a b =>
    (if a.needsParens op.level then inParens a.text else a.text) ++ " " ++ op.symbol ++ " " ++
      (if b.needsParens op.level then inParens b.text else b.text)
  | .app f args => f ++ inParens (commaSeparated (textOfList args))
  | .quant q vars body =>
    q.keyword ++ " " ++ commaSeparated (vars.map Variable.text) ++ " :: " ++ body.text

def textOfList : List Expr → List String
  | [] => []
  | e :: es => e.text :: textOfList es

end

end Expr

end LayerCheck
