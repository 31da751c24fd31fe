import Lifeline.Span

/-! A diagnostic says what is wrong with a source, and where. -/

namespace Lifeline

/-- A code names one kind of error in a source. -/
inductive Code where
  | unclosedQuote
  | unknownCommand
  | blockCommand
  | terminatorMode
  | noteArity
  | undefinedMarker
  | reservedName
  | strayEnd
  | unclosedBlock
  | misplacedSplit
  deriving DecidableEq

namespace Code

/-- The hundreds digit tells the phase: text, line or structure. -/
def name : Code → String
  | .unclosedQuote => "E001"
  | .unknownCommand => "E100"
  | .blockCommand => "E101"
  | .terminatorMode => "E102"
  | .noteArity => "E103"
  | .undefinedMarker => "E200"
  | .reservedName => "E201"
  | .strayEnd => "E202"
  | .unclosedBlock => "E203"
  | .misplacedSplit => "E204"

def summary : Code → String
  | .unclosedQuote => "unterminated token"
  | .unknownCommand => "unrecognised command"
  | .blockCommand => "invalid block command"
  | .terminatorMode => "unknown terminator"
  | .noteArity => "invalid note arity"
  | .undefinedMarker => "undefined marker"
  | .reservedName => "reserved agent"
  | .strayEnd => "extra block end"
  | .unclosedBlock => "unterminated block"
  | .misplacedSplit => "invalid split"

/-- The codes stand in the order of their names. -/
def all : List Code :=
  [.unclosedQuote, .unknownCommand, .blockCommand, .terminatorMode, .noteArity,
    .undefinedMarker, .reservedName, .strayEnd, .unclosedBlock, .misplacedSplit]

def ofName? (text : String) : Option Code := all.find? fun code => code.name == text

end Code

/-- A label is a remark on a range of the source; a primary label marks the error itself. -/
structure Label where
  span : Span
  message : String
  primary : Bool
  deriving DecidableEq

structure Diagnostic where
  message : String
  code : Option Code := none
  labels : List Label := []
  help : Option String := none
  deriving DecidableEq

namespace Diagnostic

def withCode (diagnostic : Diagnostic) (code : Code) : Diagnostic :=
  { diagnostic with code := some code }

/-- The update adds a primary label behind the labels that are there. -/
def withLabel (diagnostic : Diagnostic) (span : Span) (message : String) : Diagnostic :=
  { diagnostic with labels := diagnostic.labels ++ [⟨span, message, true⟩] }

/-- The update adds a secondary label behind the labels that are there. -/
def withRemark (diagnostic : Diagnostic) (span : Span) (message : String) : Diagnostic :=
  { diagnostic with labels := diagnostic.labels ++ [⟨span, message, false⟩] }

def withHelp (diagnostic : Diagnostic) (help : String) : Diagnostic :=
  { diagnostic with help := some help }

/-- The headline gives the code in brackets, where there is one, and the message. -/
def headline (diagnostic : Diagnostic) : String :=
  match diagnostic.code with
  | some code => "error[" ++ code.name ++ "]: " ++ diagnostic.message
  | none => "error: " ++ diagnostic.message

end Diagnostic

end Lifeline
