import LayerCheck.Layer.Facts

/-!
# Why a layer is rejected

One constructor for each cause; `LayerError.message` words it.
-/

namespace LayerCheck

/-- What has a number of arguments or formals. -/
inductive AritySubject where
  | implementationInputs
  | implementationOutputs
  | actionInputs
  | actionOutputs
  | invariantCall
  | parallelInputs
  | parallelOutputs
deriving DecidableEq, Repr, Inhabited

def AritySubject.text : AritySubject → String
  | implementationInputs => "implementation inputs"
  | implementationOutputs => "implementation outputs"
  | actionInputs => "refined action inputs"
  | actionOutputs => "refined action outputs"
  | invariantCall => "yield invariant call"
  | parallelInputs => "parallel call inputs"
  | parallelOutputs => "parallel call outputs"

inductive LayerError where
  | unknownImplementation (name : String)
  | unknownProcedure (name : String)
  | unknownYieldingProcedure (name : String)
  | unknownInvariant (name : String)
  | unknownAction (name : String)
  | arity (subject : AritySubject) (name : String) (expected found : Nat)
  | typeParameters (implementation callee : String)
  | noBlocks (implementation : String)
  | danglingTarget (implementation block target : String)
  | reservedLabel (implementation label : String)
  /-- A refinement block has a label that is taken. -/
  | labelClash (implementation label : String)
  | irreducible (implementation : String)
  /-- The procedure is atomic from a lower layer on. -/
  | aboveUpperLayer (procedure : String) (upper layer : Layer)
deriving DecidableEq, Repr, Inhabited

private def quoted (s : String) : String := "'" ++ s ++ "'"

def LayerError.message : LayerError → String
  | unknownImplementation name => "Unknown implementation " ++ quoted name
  | unknownProcedure name => "Unknown procedure " ++ quoted name
  | unknownYieldingProcedure name => "Procedure " ++ quoted name ++ " is not a yielding procedure"
  | unknownInvariant name => "Unknown yield invariant " ++ quoted name
  | unknownAction name => "Unknown atomic action " ++ quoted name
  | arity subject name expected found =>
    "Arity mismatch for " ++ subject.text ++ " " ++ quoted name ++ ": expected " ++
      toString expected ++ ", found " ++ toString found
  | typeParameters implementation callee =>
    "Procedure " ++ quoted callee ++ " called in a parallel call of " ++ quoted implementation ++
      " has type parameters"
  | noBlocks implementation => "Implementation " ++ quoted implementation ++ " has no blocks"
  | danglingTarget implementation block target =>
    "Block " ++ quoted block ++ " of " ++ quoted implementation ++ " jumps to unknown block " ++
      quoted target
  | reservedLabel implementation label =>
    "Block label " ++ quoted label ++ " of " ++ quoted implementation ++
      " is reserved for instrumentation"
  | labelClash implementation label =>
    "Refinement block " ++ quoted label ++ " spliced into " ++ quoted implementation ++
      " clashes with another block label"
  | irreducible implementation => "Control flow of " ++ quoted implementation ++ " is irreducible"
  | aboveUpperLayer procedure upper layer =>
    "Yielding procedure " ++ quoted procedure ++ " disappears at layer " ++ toString upper ++
      " but is instrumented at layer " ++ toString layer

end LayerCheck
