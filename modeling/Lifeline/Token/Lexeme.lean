import Lifeline.Token.Quoted

/-! A text is cut into lexemes, each as long as its kind allows. -/

namespace Lifeline

/-- A lexeme keeps its exact text, the marks around a quotation and the sign in front of a comment
apart. -/
inductive Lexeme where
  | blank (run : List Char)
  | comment (body : List Char)
  | quotation (mark : Char) (content : List Char)
  | word (run : List Char)
  | symbols (run : List Char)
  | comma
  | colon
  | newline
  deriving DecidableEq

namespace Lexeme

def isBlank (character : Char) : Bool :=
  character == ' ' || character == '\t' || character == '\r'

/-- Arrows and flags are made of these characters. -/
def isSymbol (character : Char) : Bool :=
  character == '+' || character == '-' || character == '<' || character == '>'

/-- A word runs up to a character with a meaning of its own. Quotes and number signs have a meaning
only at the start of a lexeme, and so a word may go on with them. -/
def isWordCharacter (character : Char) : Bool :=
  !(isBlank character || isSymbol character || character == '\n' || character == ':' ||
    character == ',')

/-- This is the text that the lexeme takes up in its source. -/
def text : Lexeme → List Char
  | .blank run => run
  | .comment body => '#' :: body
  | .quotation mark content => mark :: (content ++ [mark])
  | .word run => run
  | .symbols run => run
  | .comma => [',']
  | .colon => [':']
  | .newline => ['\n']

/-- Blanks and comments carry no value. A quotation stands for its decoded content. -/
def value? : Lexeme → Option (List Char)
  | .blank _ => none
  | .comment _ => none
  | .quotation _ content => some (Quoted.decode content)
  | .word run => some run
  | .symbols run => some run
  | .comma => some [',']
  | .colon => some [':']
  | .newline => some ['\n']

def isQuotation : Lexeme → Bool
  | .quotation _ _ => true
  | _ => false

/-- This function reads the first lexeme of a text and gives what follows it. It gives nothing at
the end of the text and where a quotation is never closed. -/
def next? : List Char → Option (Lexeme × List Char)
  | [] => none
  | head :: rest =>
      if head = '#' then
        some (.comment (rest.takeWhile (· != '\n')), rest.dropWhile (· != '\n'))
      else if Quoted.isMark head then
        (Quoted.close? head rest).map fun (content, after) => (.quotation head content, after)
      else if isBlank head then
        some (.blank (head :: rest.takeWhile isBlank), rest.dropWhile isBlank)
      else if isSymbol head then
        some (.symbols (head :: rest.takeWhile isSymbol), rest.dropWhile isSymbol)
      else if head = ',' then some (.comma, rest)
      else if head = ':' then some (.colon, rest)
      else if head = '\n' then some (.newline, rest)
      else some (.word (head :: rest.takeWhile isWordCharacter), rest.dropWhile isWordCharacter)

/-- A lexeme and what follows it make up the text. -/
theorem text_append_of_next? {source rest : List Char} {lexeme : Lexeme}
    (found : next? source = some (lexeme, rest)) : lexeme.text ++ rest = source := by
  cases source with
  | nil => cases found
  | cons head tail =>
      simp only [next?] at found
      split at found
      · cases found
        simp_all [text, List.takeWhile_append_dropWhile]
      split at found
      · obtain ⟨pair, closed, equal⟩ := Option.map_eq_some_iff.mp found
        cases equal
        simp [text, Quoted.append_of_close? closed]
      split at found
      · cases found
        simp [text, List.takeWhile_append_dropWhile]
      split at found
      · cases found
        simp [text, List.takeWhile_append_dropWhile]
      split at found
      · cases found
        simp_all [text]
      split at found
      · cases found
        simp_all [text]
      split at found
      · cases found
        simp_all [text]
      · cases found
        simp [text, List.takeWhile_append_dropWhile]

/-- No lexeme that is read is empty. -/
theorem text_ne_nil_of_next? {source rest : List Char} {lexeme : Lexeme}
    (found : next? source = some (lexeme, rest)) : lexeme.text ≠ [] := by
  cases source with
  | nil => cases found
  | cons head tail =>
      simp only [next?] at found
      split at found
      · cases found
        simp [text]
      split at found
      · obtain ⟨pair, closed, equal⟩ := Option.map_eq_some_iff.mp found
        cases equal
        simp [text]
      repeat' split at found
      all_goals
        cases found
        simp [text]

/-- Every lexeme takes a character at least. -/
theorem length_lt_of_next? {source rest : List Char} {lexeme : Lexeme}
    (found : next? source = some (lexeme, rest)) : rest.length < source.length := by
  have positive := List.length_pos_iff.mpr (text_ne_nil_of_next? found)
  rw [← text_append_of_next? found, List.length_append]
  omega

/-- This function reads lexemes as long as it can. The rest is empty at the end of the text, and
otherwise begins with the mark of a quotation that is never closed. -/
def scan (source : List Char) : List Lexeme × List Char :=
  match _found : next? source with
  | none => ([], source)
  | some (lexeme, rest) =>
      let (lexemes, unread) := scan rest
      (lexeme :: lexemes, unread)
  termination_by source.length
  decreasing_by exact length_lt_of_next? _found

/-- The lexemes tile what has been read. -/
theorem flatMap_text_append_scan (source : List Char) :
    (scan source).1.flatMap text ++ (scan source).2 = source := by
  fun_induction scan source with
  | case1 source found => simp
  | case2 source lexeme rest found lexemes unread scanned ih =>
      simp_all only [List.flatMap_cons, List.append_assoc]
      exact text_append_of_next? found

end Lexeme

end Lifeline
