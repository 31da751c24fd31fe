/-! A TOML text is a list of blank lines, headers and entries. -/

namespace Lifeline

/-- A value is a string on one line, a boolean or an integer. It keeps its kind, since a setting has
to be of the right kind. -/
inductive TomlValue where
  | text (value : List Char)
  | boolean (value : Bool)
  | integer (value : Int)
  deriving DecidableEq

structure TomlTable where
  name : List Char
  entries : List (List Char × TomlValue) := []
  deriving DecidableEq

/-- The entries in front of the first header belong to no table. The newest table comes first. -/
structure Toml where
  root : List (List Char × TomlValue) := []
  tables : List TomlTable := []
  deriving DecidableEq

inductive TomlLine where
  | blank
  | header (name : List Char)
  | entry (key : List Char) (value : TomlValue)
  deriving DecidableEq

namespace Toml

def isBlank (character : Char) : Bool := character == ' ' || character == '\t'

/-- A key is made of letters, digits, underscores and dashes of ASCII. -/
def isKeyCharacter (character : Char) : Bool :=
  character.isAlphanum || character == '_' || character == '-'

/-- Control characters other than the tab stand nowhere in a text. -/
def isPlain (character : Char) : Bool :=
  character == '\t' || !(character.toNat < 0x20 || character == '\x7f')

def skipBlanks (text : List Char) : List Char := text.dropWhile isBlank

/-- A line may end with blanks and a comment. -/
def isEnd (text : List Char) : Bool :=
  match skipBlanks text with
  | [] => true
  | head :: comment => head == '#' && comment.all isPlain

def key? (text : List Char) : Option (List Char × List Char) :=
  match text.span isKeyCharacter with
  | ([], _) => none
  | pair => some pair

/-- These letters stand for ten and more, in either case. -/
def digitValue (character : Char) : Option Nat :=
  if character.isDigit then some (character.toNat - '0'.toNat)
  else if 'a' ≤ character && character ≤ 'f' then some (character.toNat - 'a'.toNat + 10)
  else if 'A' ≤ character && character ≤ 'F' then some (character.toNat - 'A'.toNat + 10)
  else none

/-- Digits may be grouped by underscores, each between two digits. -/
def digits? (base : Nat) (text : List Char) : Option Nat :=
  let groups := text.splitOnP (· == '_')
  if groups.any List.isEmpty then none
  else
    groups.flatten.foldlM
      (fun value character =>
        match digitValue character with
        | some digit => if digit < base then some (value * base + digit) else none
        | none => none) 0

/-- A decimal number has no zero in front of other digits. -/
def decimal? : List Char → Option Nat
  | ['0'] => some 0
  | '0' :: _ => none
  | text => digits? 10 text

/-- Only a decimal number has a sign. -/
def number? : List Char → Option Int
  | '+' :: text => (decimal? text).map Int.ofNat
  | '-' :: text => (decimal? text).map fun value => -Int.ofNat value
  | '0' :: 'x' :: text => (digits? 16 text).map Int.ofNat
  | '0' :: 'o' :: text => (digits? 8 text).map Int.ofNat
  | '0' :: 'b' :: text => (digits? 2 text).map Int.ofNat
  | text => (decimal? text).map Int.ofNat

/-- An integer fits into 128 bits, either with a sign or without one. -/
def fits (value : Int) : Bool :=
  -0x80000000000000000000000000000000 ≤ value && value ≤ 0xffffffffffffffffffffffffffffffff

/-- A number that does not fit is no value, even where nothing asks for the value. -/
def integer? (text : List Char) : Option Int := (number? text).filter fits

/-- A string ends with the mark that begins it. Only a string in single quotes can hold a
backslash. -/
def string? (mark : Char) (text : List Char) : Option (TomlValue × List Char) :=
  match text.span (· != mark) with
  | (_, []) => none
  | (content, _ :: rest) =>
      if content.all fun character => isPlain character && (mark == '\x27' || character != '\\')
      then some (.text content, rest)
      else none

/-- A word that is no truth value has to be an integer. -/
def value? (text : List Char) : Option (TomlValue × List Char) :=
  match text with
  | '\x22' :: rest => string? '\x22' rest
  | '\x27' :: rest => string? '\x27' rest
  | _ =>
      match text.span fun character => isKeyCharacter character || character == '+' with
      | (['t', 'r', 'u', 'e'], rest) => some (.boolean true, rest)
      | (['f', 'a', 'l', 's', 'e'], rest) => some (.boolean false, rest)
      | (word, rest) => (integer? word).map fun value => (.integer value, rest)

/-- A header stands alone on its line. -/
def header? (text : List Char) : Option TomlLine :=
  match key? (skipBlanks text) with
  | none => none
  | some (name, after) =>
      match skipBlanks after with
      | ']' :: rest => if isEnd rest then some (.header name) else none
      | _ => none

/-- An entry stands alone on its line. -/
def entry? (text : List Char) : Option TomlLine :=
  match key? text with
  | none => none
  | some (key, after) =>
      match skipBlanks after with
      | '=' :: rest =>
          match value? (skipBlanks rest) with
          | some (value, after) => if isEnd after then some (.entry key value) else none
          | none => none
      | _ => none

def line? (text : List Char) : Option TomlLine :=
  if isEnd text then some .blank
  else
    match skipBlanks text with
    | '[' :: rest => header? rest
    | rest => entry? rest

/-- A newline may have a carriage return in front of it; the last line has no newline. -/
def lines (text : List Char) : List (List Char) :=
  let pieces := text.splitOnP (· == '\n')
  pieces.dropLast.map (fun piece => if piece.getLast? = some '\r' then piece.dropLast else piece) ++
    [pieces.getLastD []]

def hasKey (entries : List (List Char × TomlValue)) (key : List Char) : Bool :=
  entries.any fun entry => entry.1 == key

/-- A line extends the newest table. It must not set or begin anything twice. -/
def extend (toml : Toml) : TomlLine → Option Toml
  | .blank => some toml
  | .header name =>
      if hasKey toml.root name || toml.tables.any fun table => table.name == name then none
      else some { toml with tables := { name := name } :: toml.tables }
  | .entry key value =>
      match toml.tables with
      | [] =>
          if hasKey toml.root key then none
          else some { toml with root := (key, value) :: toml.root }
      | table :: older =>
          if hasKey table.entries key then none
          else
            some
              { toml with
                tables := { table with entries := (key, value) :: table.entries } :: older }

/-- A text may begin with one byte order mark, which is no part of its first line. -/
def withoutMark : List Char → List Char
  | '\ufeff' :: text => text
  | text => text

/-- This function reads a text, and gives nothing if any line of it is wrong. -/
def read? (text : String) : Option Toml :=
  (lines (withoutMark text.toList)).foldlM (fun toml piece => (line? piece).bind toml.extend) {}

/-- This function looks up a key in a table. -/
def lookup? (toml : Toml) (table key : String) : Option TomlValue :=
  ((toml.tables.find? fun candidate => candidate.name == table.toList).bind fun found =>
    found.entries.find? fun entry => entry.1 == key.toList).map Prod.snd

end Toml

end Lifeline
