/-! The writer of the output tells what went wrong and where, in one text. -/

namespace Lifeline

/-- The place is a line and a column. Lines count from one, so line zero is no place. -/
structure OutputTrouble where
  message : String
  line : Nat := 0
  column : Nat := 0
  deriving DecidableEq

namespace OutputTrouble

def lineMark : String := " at line "

def columnMark : String := " column "

/-- The text gives the place after the message, unless there is none. -/
def text (trouble : OutputTrouble) : String :=
  if trouble.line == 0 then trouble.message
  else
    trouble.message ++ lineMark ++ toString trouble.line ++ columnMark ++ toString trouble.column

/-- This is the largest number that a place can hold: a number of 64 bits. -/
def largest : Nat := 0xffffffffffffffff

/-- This function reads the number at the end of a text, and gives what stands before it. -/
def number? (text : List Char) : Option (List Char × Nat) :=
  let digits := (text.reverse.takeWhile Char.isDigit).reverse
  let value := Nat.ofDigitChars 10 digits 0
  if digits.isEmpty || largest < value then none
  else some ((text.reverse.dropWhile Char.isDigit).reverse, value)

/-- This function reads a mark and a number at the end of a text, and gives what stands before. -/
def marked? (mark : String) (text : List Char) : Option (List Char × Nat) := do
  let (before, value) ← number? text
  return (← mark.toList.isSuffixOf? before, value)

/-- A place counts only when both of its numbers are there and nothing follows them. -/
def placed? (text : List Char) : Option OutputTrouble := do
  let (before, column) ← marked? columnMark text
  let (message, line) ← marked? lineMark before
  return { message := String.ofList message, line, column }

/-- A text that ends with no place is the message as a whole. -/
def ofText (text : String) : OutputTrouble :=
  (placed? text.toList).getD { message := text }

end OutputTrouble

end Lifeline
