import LayerCheck.Expr.Printer
import LayerCheck.Program.Basic

/-!
# Text of programs

Each function gives the text of one kind of phrase. Blocks, procedures and implementations are made
of whole lines; a program separates its procedures and implementations by empty lines.
-/

namespace LayerCheck

def attributesText (attributes : List String) : String :=
  String.join (attributes.map fun a => "\x7b:" ++ a ++ "\x7d ")

def Call.text (c : Call) : String :=
  attributesText c.attributes ++
    (if c.outs.isEmpty then "" else commaSeparated c.outs ++ " := ") ++
    c.callee ++ inParens (commaSeparated (c.ins.map Expr.text))

def Command.text : Command → String
  | .assign targets values =>
    commaSeparated targets ++ " := " ++ commaSeparated (values.map Expr.text) ++ ";"
  | .havoc vars => "havoc " ++ commaSeparated vars ++ ";"
  | .assume e => "assume " ++ e.text ++ ";"
  | .assert e none => "assert " ++ e.text ++ ";"
  | .assert e (some message) => "assert \x7b:msg \"" ++ message ++ "\"\x7d " ++ e.text ++ ";"
  | .call c => "call " ++ c.text ++ ";"
  | .yield _ => "yield;"
  | .par p =>
    "par " ++ attributesText p.attributes ++ " | ".intercalate (p.calls.map Call.text) ++ ";"

def Transfer.text : Transfer → String
  | .ret => "return;"
  | .goto targets => "goto " ++ commaSeparated targets ++ ";"

/-- The lines with a line end after each. -/
def lines (ls : List String) : String := String.join (ls.map (· ++ "\n"))

def Block.text (b : Block) : String :=
  lines (["  " ++ b.label ++ ":"] ++ b.commands.map ("    " ++ ·.text) ++
    ["    " ++ b.transfer.text])

/-- Type parameters, inputs and outputs as they stand after a name. -/
def signatureText (typeParams : List String) (inputs outputs : List Variable) : String :=
  (if typeParams.isEmpty then "" else "<" ++ commaSeparated typeParams ++ ">") ++
    inParens (commaSeparated (inputs.map Variable.text)) ++
    (if outputs.isEmpty then "" else
      " returns " ++ inParens (commaSeparated (outputs.map Variable.text)))

def Clause.text (keyword : String) (c : Clause) : String :=
  "  " ++ (if c.free then "free " else "") ++ keyword ++ " " ++ c.condition.text ++ ";"

def Procedure.text (p : Procedure) : String :=
  lines (["procedure " ++ attributesText p.attributes ++ p.name ++
      signatureText p.typeParams p.inputs p.outputs ++ ";"] ++
    p.requires.map (Clause.text "requires") ++
    (if p.modifies.isEmpty then [] else ["  modifies " ++ commaSeparated p.modifies ++ ";"]) ++
    p.ensures.map (Clause.text "ensures"))

def Implementation.text (i : Implementation) : String :=
  lines (["implementation " ++ attributesText i.attributes ++ i.name ++
      signatureText i.typeParams i.inputs i.outputs, "\x7b"] ++
    i.locals.map ("  var " ++ ·.text ++ ";") ++ (if i.locals.isEmpty then [] else [""])) ++
    String.join (i.blocks.map Block.text) ++ "\x7d\n"

def Declaration.text : Declaration → String
  | .procedure p => p.text
  | .implementation i => i.text

def Program.text (p : Program) : String :=
  lines (p.globals.map ("var " ++ ·.text ++ ";")) ++
    String.join (p.procedures.values.map ("\n" ++ ·.text)) ++
    String.join (p.implementations.values.map ("\n" ++ ·.text))

end LayerCheck
