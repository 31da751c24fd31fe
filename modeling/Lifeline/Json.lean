/-! A JSON value is written on one line or over many lines. -/

namespace Lifeline

/-- The fields of a record keep their order. -/
inductive Json where
  | boolean (value : Bool)
  | text (value : String)
  | list (items : List Json)
  | record (fields : List (String × Json))

namespace Json

/-- A layout decides what stands between the parts of a text. -/
inductive Layout where
  | compact
  | indented
  deriving DecidableEq

namespace Layout

/-- A gap begins a new line at a depth, if the layout has lines. -/
def gap (layout : Layout) (depth : Nat) : List Char :=
  match layout with
  | .compact => []
  | .indented => '\n' :: List.replicate (2 * depth) ' '

/-- This is what stands between the name of a field and its value. -/
def colon : Layout → List Char
  | .compact => [':']
  | .indented => [':', ' ']

end Layout

def hexDigit (value : Nat) : Char := "0123456789abcdef".toList.getD value '0'

/-- A string is written with a backslash in front of a quote and of a backslash, and with escapes
for the characters below the blank. All others stand for themselves. -/
def escape (character : Char) : List Char :=
  if character = '\x22' then ['\\', '\x22']
  else if character = '\\' then ['\\', '\\']
  else if character = '\x08' then ['\\', 'b']
  else if character = '\x0c' then ['\\', 'f']
  else if character = '\n' then ['\\', 'n']
  else if character = '\r' then ['\\', 'r']
  else if character = '\t' then ['\\', 't']
  else if character.toNat < 0x20 then
    ['\\', 'u', '0', '0', hexDigit (character.toNat / 16), hexDigit (character.toNat % 16)]
  else [character]

def quote (text : String) (rest : List Char) : List Char :=
  '\x22' :: (text.toList.flatMap escape ++ '\x22' :: rest)

def writeName (layout : Layout) (name : String) (rest : List Char) : List Char :=
  quote name (layout.colon ++ rest)

mutual

/-- This function writes a value that begins at a depth in front of the rest of a text. Each part of
a list or a record has a line of its own if the layout has lines, and without parts the brackets
touch. -/
def write (layout : Layout) (depth : Nat) : Json → List Char → List Char
  | .boolean true, rest => 't' :: 'r' :: 'u' :: 'e' :: rest
  | .boolean false, rest => 'f' :: 'a' :: 'l' :: 's' :: 'e' :: rest
  | .text value, rest => quote value rest
  | .list [], rest => '[' :: ']' :: rest
  | .list (item :: items), rest =>
      '[' :: (layout.gap (depth + 1) ++ write layout (depth + 1) item
        (writeItems layout (depth + 1) items (layout.gap depth ++ ']' :: rest)))
  | .record [], rest => '\x7b' :: '\x7d' :: rest
  | .record ((name, value) :: fields), rest =>
      '\x7b' :: (layout.gap (depth + 1) ++ writeName layout name (write layout (depth + 1) value
        (writeFields layout (depth + 1) fields (layout.gap depth ++ '\x7d' :: rest))))

/-- These are the items behind the first one, each with a comma in front of it. -/
def writeItems (layout : Layout) (depth : Nat) : List Json → List Char → List Char
  | [], rest => rest
  | item :: items, rest =>
      ',' :: (layout.gap depth ++ write layout depth item (writeItems layout depth items rest))

/-- These are the fields behind the first one, each with a comma in front of it. -/
def writeFields (layout : Layout) (depth : Nat) : List (String × Json) → List Char → List Char
  | [], rest => rest
  | (name, value) :: fields, rest =>
      ',' :: (layout.gap depth ++ writeName layout name
        (write layout depth value (writeFields layout depth fields rest)))

end

def render (layout : Layout) (value : Json) : String := String.ofList (write layout 0 value [])

end Json

end Lifeline
