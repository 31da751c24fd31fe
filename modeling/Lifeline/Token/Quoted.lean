/-! A backslash lets a quoted text hold its own closing mark. -/

namespace Lifeline.Quoted

/-- A quotation is closed by the mark that opens it. -/
def isMark (character : Char) : Bool := character == '\x22' || character == '\x27'

/-- These characters end a line, and no backslash reaches across the end of a line. -/
def endsLine (character : Char) : Bool :=
  character == '\n' || character == '\r' || character == '\u2028' || character == '\u2029'

/-- This function finds the closing mark. It gives the content as it is written and what follows
the mark, or nothing if the text ends first. -/
def close? (mark : Char) : List Char → Option (List Char × List Char)
  | [] => none
  | '\\' :: next :: rest =>
      if endsLine next then
        (close? mark (next :: rest)).map fun (content, after) => ('\\' :: content, after)
      else
        (close? mark rest).map fun (content, after) => ('\\' :: next :: content, after)
  | head :: rest =>
      if head = mark then some ([], rest)
      else (close? mark rest).map fun (content, after) => (head :: content, after)

/-- This function gives the text that a written content stands for. -/
def decode : List Char → List Char
  | [] => []
  | '\\' :: next :: rest =>
      if endsLine next then '\\' :: decode (next :: rest)
      else (if next = 'n' then '\n' else next) :: decode rest
  | head :: rest => head :: decode rest

/-- Nothing is lost: the content, the mark and the rest make up the text again. -/
theorem append_of_close? {mark : Char} {text content after : List Char}
    (closed : close? mark text = some (content, after)) :
    content ++ mark :: after = text := by
  fun_induction close? mark text generalizing content with
  | case1 => cases closed
  | case2 next rest ends ih =>
      obtain ⟨pair, found, equal⟩ := Option.map_eq_some_iff.mp closed
      cases equal
      simp [ih found]
  | case3 next rest plain ih =>
      obtain ⟨pair, found, equal⟩ := Option.map_eq_some_iff.mp closed
      cases equal
      simp [ih found]
  | case4 rest other =>
      cases closed
      rfl
  | case5 head rest other differs ih =>
      obtain ⟨pair, found, equal⟩ := Option.map_eq_some_iff.mp closed
      cases equal
      simp [ih found]

end Lifeline.Quoted
