import Lifeline.Line
import Lifeline.Statement.Keyword

/-! A line is read by its keyword, or else as a message or a marker. -/

namespace Lifeline

/-- A misreading is the cause for which a line is refused. -/
inductive Misreading where
  | noStatement
  | noTerminator
  | unknownTerminator (word : Token)
  | strayWord (word : Token)
  | noteArity (style : NoteStyle) (arity : Arity) (given : Nat)
  deriving DecidableEq

/-- A refusal keeps the line that it is about. -/
structure Refusal where
  line : Line
  cause : Misreading
  deriving DecidableEq

namespace Refusal

def terminatorHelp : String :=
  "valid modes are " ++ ", ".intercalate (Terminator.all.map Terminator.name)

/-- Every message ends with the text of the line. -/
def diagnostic (refusal : Refusal) : Diagnostic :=
  let text := Line.text refusal.line
  let span := Line.span refusal.line
  match refusal.cause with
  | .noStatement =>
      { message := "unrecognised command: " ++ text
        code := some .unknownCommand
        labels := [⟨span, "no statement matches this line", true⟩]
        help := some "connections need an operator such as `->`; markers end with `:`" }
  | .noTerminator =>
      { message := "missing terminator mode: " ++ text
        code := some .terminatorMode
        labels := [⟨span, "expected a terminator mode", true⟩]
        help := some terminatorHelp }
  | .unknownTerminator word =>
      { message := Terminator.refusal word.value ++ ": " ++ text
        code := some .terminatorMode
        labels := [⟨word.span, "unknown terminator mode", true⟩]
        help := some terminatorHelp }
  | .strayWord word =>
      { message := "invalid block command: " ++ text
        code := some .blockCommand
        labels :=
          [⟨word.span, "unexpected token", true⟩, ⟨span, "in this block command", false⟩]
        help := some "put the label after a colon" }
  | .noteArity style arity given =>
      { message := "invalid " ++ style.keyword ++ ": " ++ text
        code := some .noteArity
        labels := [⟨span, toString given ++ " agents given", true⟩]
        help := some
          ("this form of `" ++ style.keyword ++ "` takes " ++ arity.text ++ " agents") }

end Refusal

namespace Line

/-- This function drops a word that may stand at the front of the tokens. -/
def dropWord (word : String) : List Token → List Token
  | [] => []
  | first :: rest => if first.is word then rest else first :: rest

def mentions (tokens : List Token) : List Mention :=
  (names tokens).map fun name => { name := name }

/-- This function cuts tokens at the first one with the given value, which must be there. -/
def cutAt? (text : String) (tokens : List Token) : Option (List Token × List Token) :=
  match tokens.span fun token => !token.is text with
  | (_, []) => none
  | (before, _ :: after) => some (before, after)

/-- The label follows the first colon; without a colon there is no label. -/
def cutLabel (tokens : List Token) : List Token × String :=
  match cutAt? ":" tokens with
  | some (before, after) => (before, text after)
  | none => (tokens, "")

/-- This function finds the first operator and gives what is in front of it and behind it. -/
def cutArrow? (tokens : List Token) : Option (List Token × Arrow × List Token) :=
  match tokens with
  | [] => none
  | first :: rest =>
      match Arrow.ofOperator? first.value with
      | some arrow => some ([], arrow, rest)
      | none => (cutArrow? rest).map fun (before, arrow, after) => (first :: before, arrow, after)

/-- An end of a message may start with a flag, and a flag needs a name behind it. -/
def mention? : List Token → Option Mention
  | [] => none
  | first :: rest =>
      match Flag.ofSign? first.value with
      | some flag =>
          let name := text rest
          if name = "" then none else some ⟨name, some flag⟩
      | none => some ⟨text (first :: rest), none⟩

/-- A message has an operator between two ends, and both ends stand in front of the label. -/
def message? (line : Line) : Option Statement :=
  match cutArrow? line with
  | none => none
  | some (before, arrow, after) =>
      if before.any fun token => token.is ":" then none
      else
        let (target, label) := cutLabel after
        match mention? before, mention? target with
        | some sender, some receiver => some (.message sender receiver arrow label)
        | _, _ => none

/-- A marker is a name with a colon behind it. -/
def marker? (line : Line) : Option Statement :=
  match line.getLast?, line.dropLast with
  | some last, first :: rest =>
      if last.is ":" then some (.mark (text (first :: rest))) else none
  | _, _ => none

/-- Only the mode behind the keyword counts; what follows it is ignored. -/
def readTerminators : List Token → Except Misreading Terminator
  | [] => .error .noTerminator
  | word :: _ =>
      match Terminator.ofName? word.value with
      | some mode => .ok mode
      | none => .error (.unknownTerminator word)

/-- The label of a block may have a colon in front of it. -/
def blockLabel (arguments : List Token) : String := text (dropWord ":" arguments)

/-- What follows `else` is nothing, the word `if` or a colon. -/
def readOtherwise : List Token → Except Misreading Statement
  | [] => .ok (.splitBlock .otherwise "")
  | first :: rest =>
      if first.is "if" then .ok (.splitBlock .otherwise (blockLabel rest))
      else if first.is ":" then .ok (.splitBlock .otherwise (text rest))
      else .error (.strayWord first)

/-- A jump ends with a colon. It either names nothing or names its target behind `with`. -/
def jump? (arguments : List Token) : Option Statement :=
  match arguments.getLast? with
  | none => none
  | some last =>
      if last.is ":" then
        match arguments.dropLast with
        | [] => some (.jump "")
        | word :: target => if word.is "with" then some (.jump (text target)) else none
      else none

/-- A note has a position, the names that it is about and a label behind the first colon. Its
number of names is checked once it is known to be a note. -/
def readNote (style : NoteStyle) : List Token → Except Misreading (Option Statement)
  | [] => .ok none
  | word :: rest =>
      match NoteForm.ofWord? style word.value, cutAt? ":" rest with
      | some form, some (before, label) =>
          let about := mentions (form.filler.elim before fun filler => dropWord filler before)
          if form.arity.allows about.length then
            .ok (some (.note form.position style about (text label)))
          else .error (.noteArity style form.arity about.length)
      | _, _ => .ok none

/-- A list of participants needs at least one token. -/
def withMentions? (arguments : List Token) (statement : List Mention → Statement) :
    Option Statement :=
  if arguments = [] then none else some (statement (mentions arguments))

/-- This function reads what follows a keyword. It gives nothing if the line does not have the
form of the keyword. -/
def readForm (keyword : Keyword) (arguments : List Token) : Except Misreading (Option Entry) :=
  match keyword with
  | .title => .ok (some (.title (text arguments)))
  | .terminators => (readTerminators arguments).map fun mode => some (.terminators mode)
  | .alternative => .ok (some (.statement (.openBlock .alternative (blockLabel arguments))))
  | .loop => .ok (some (.statement (.openBlock .loop (blockLabel arguments))))
  | .otherwise => (readOtherwise arguments).map fun statement => some (.statement statement)
  | .otherwiseIf => .ok (some (.statement (.splitBlock .otherwise (blockLabel arguments))))
  | .define => .ok ((withMentions? arguments .define).map .statement)
  | .enter => .ok ((withMentions? arguments fun about => .enter about .box).map .statement)
  | .leave =>
      if arguments = [] then .ok (some (.statement .closeBlock))
      else .ok ((withMentions? arguments fun about => .leave about .cross).map .statement)
  | .simultaneously => .ok ((jump? arguments).map .statement)
  | .note style => (readNote style arguments).map fun statement => statement.map .statement

/-- This function reads a line by its keyword, if it has one and has the form of it. -/
def readKeyword : Line → Except Misreading (Option Entry)
  | [] => .ok none
  | first :: arguments =>
      match Keyword.ofWord? first.value with
      | some keyword => readForm keyword arguments
      | none => .ok none

/-- A message is tried before a marker. -/
def readFree (line : Line) : Option Statement := message? line <|> marker? line

/-- This function gives what a line says, or the cause for which it says nothing. -/
def read (line : Line) : Except Refusal Entry :=
  match readKeyword line with
  | .error cause => .error ⟨line, cause⟩
  | .ok (some entry) => .ok entry
  | .ok none =>
      match readFree line with
      | some statement => .ok (.statement statement)
      | none => .error ⟨line, .noStatement⟩

end Line

end Lifeline
