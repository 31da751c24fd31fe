import Lifeline.Token

/-! A line is a run of tokens without an unquoted newline. -/

namespace Lifeline

/-- A line is a list of tokens, and so is each part of a line. -/
abbrev Line := List Token

namespace Line

/-- This text joins the tokens as they were spaced; the separator of the first one is left out. -/
def text : Line → String
  | [] => ""
  | first :: rest =>
      first.value ++ String.join (rest.map fun token => token.separator ++ token.value)

/-- A line reaches from its first to its last token. -/
def span (line : Line) : Span :=
  match line.head?, line.getLast? with
  | some first, some last => first.span.union last.span
  | _, _ => .origin

def isAt (tokens : Line) (index : Nat) (text : String) : Bool :=
  tokens[index]?.any fun token => token.is text

/-- This is the first index from a start on whose token has the given value. -/
def find? (line : Line) (text : String) (start : Nat) : Option Nat :=
  ((line.drop start).findIdx? fun token => token.is text).map (start + ·)

/-- This text joins a range of the line. A range that does not lie in the line is empty. -/
def join (line : Line) (start stop : Nat) : String :=
  if start ≤ stop ∧ stop ≤ line.length then text ((line.take stop).drop start) else ""

/-- The names in a comma list are the texts between its commas. Empty names are left out. -/
def names (tokens : List Token) : List String :=
  ((tokens.splitOnP fun token => token.is ",").map text).filter fun name => name != ""

/-- This function cuts tokens into lines at every unquoted newline and leaves out empty lines. -/
def split (tokens : List Token) : List Line :=
  (tokens.splitOnP Token.isLineBreak).filter fun line => line != []

@[simp] theorem text_nil : text [] = "" := rfl

@[simp] theorem text_singleton (token : Token) : text [token] = token.value := by
  simp [text]

/-- No line is empty. -/
theorem ne_nil_of_mem_split {tokens : List Token} {line : Line} (member : line ∈ split tokens) :
    line ≠ [] := by
  simpa using (List.mem_filter.mp member).2

end Line

end Lifeline
