import Lifeline.Diagram

/-! A document is a list of statements. -/

namespace Lifeline

/-- A flag in front of a participant asks for its lifeline to begin or to end with a message. -/
inductive Flag where
  | arrive
  | depart
  deriving DecidableEq

namespace Flag

def sign : Flag → String
  | .arrive => "+"
  | .depart => "-"

def ofSign? : String → Option Flag
  | "+" => some .arrive
  | "-" => some .depart
  | _ => none

/-- A flag is known by its sign. -/
theorem ofSign?_sign (flag : Flag) : ofSign? flag.sign = some flag := by
  cases flag <;> rfl

end Flag

/-- A mention names a participant and may carry a flag. -/
structure Mention where
  name : String
  flag : Option Flag := none
  deriving DecidableEq

/-- A mention is shown as it is written, with its flag in front. -/
def Mention.text (mention : Mention) : String :=
  match mention.flag with
  | some flag => flag.sign ++ mention.name
  | none => mention.name

inductive Statement where
  | define (mentions : List Mention)
  | enter (mentions : List Mention) (mode : Terminator)
  | leave (mentions : List Mention) (mode : Terminator)
  | message (sender receiver : Mention) (arrow : Arrow) (label : String)
  | note (position : NotePosition) (style : NoteStyle) (mentions : List Mention) (label : String)
  | mark (name : String)
  | jump (target : String)
  | openBlock (mode : BlockMode) (label : String)
  | splitBlock (mode : BlockMode) (label : String)
  | closeBlock
  deriving DecidableEq

/-- An entry is what one line of a document says, to its header or as a statement. -/
inductive Entry where
  | title (text : String)
  | terminators (mode : Terminator)
  | statement (statement : Statement)
  deriving DecidableEq

/-- A later title or mode takes the place of an earlier one. -/
def Header.apply (header : Header) : Entry → Header
  | .title text => { header with title := text }
  | .terminators mode => { header with terminators := mode }
  | .statement _ => header

end Lifeline
