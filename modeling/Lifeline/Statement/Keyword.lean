import Lifeline.Statement

/-! The first word of a line decides which form of statement is tried first. -/

namespace Lifeline

inductive Keyword where
  | title
  | terminators
  | alternative
  | otherwise
  | otherwiseIf
  | loop
  | define
  | enter
  | leave
  | simultaneously
  | note (style : NoteStyle)
  deriving DecidableEq

def Keyword.ofWord? : String → Option Keyword
  | "title" => some .title
  | "terminators" => some .terminators
  | "if" => some .alternative
  | "else" => some .otherwise
  | "elif" => some .otherwiseIf
  | "repeat" => some .loop
  | "define" => some .define
  | "begin" => some .enter
  | "end" => some .leave
  | "simultaneously" => some .simultaneously
  | "note" => some (.note .note)
  | "text" => some (.note .text)
  | "state" => some (.note .state)
  | _ => none

/-- An arity bounds the number of names that a form takes. -/
structure Arity where
  least : Nat
  most : Option Nat := none
  deriving DecidableEq

namespace Arity

def allows (arity : Arity) (count : Nat) : Bool :=
  arity.least ≤ count && arity.most.all fun most => count ≤ most

/-- These words describe the numbers that the arity allows. -/
def text (arity : Arity) : String :=
  match arity.most with
  | some most =>
      if most = arity.least then "exactly " ++ toString most
      else "between " ++ toString arity.least ++ " and " ++ toString most
  | none => "at least " ++ toString arity.least

end Arity

/-- A note form joins a position with the word that may follow it and the names that it takes. -/
structure NoteForm where
  position : NotePosition
  filler : Option String := none
  arity : Arity := ⟨0, none⟩
  deriving DecidableEq

/-- Notes may stand anywhere, texts at the outer columns, and a state over one participant. -/
def NoteForm.ofWord? : NoteStyle → String → Option NoteForm
  | .text, "left" => some { position := .left, filler := some "of" }
  | .text, "right" => some { position := .right, filler := some "of" }
  | .note, "over" => some { position := .over }
  | .note, "left" => some { position := .left, filler := some "of" }
  | .note, "right" => some { position := .right, filler := some "of" }
  | .note, "between" => some { position := .between, arity := ⟨2, none⟩ }
  | .state, "over" => some { position := .over, arity := ⟨1, some 1⟩ }
  | _, _ => none

end Lifeline
