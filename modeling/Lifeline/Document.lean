import Lifeline.Statement.Reading

/-! A document is read line by line. -/

namespace Lifeline

/-- A located statement keeps the span of the line that it was read from. -/
structure Located where
  statement : Statement
  span : Span := .origin
  deriving DecidableEq

structure Document where
  header : Header
  statements : List Located
  deriving DecidableEq

namespace Header

/-- A line that is refused leaves the header as it is. -/
def follow (header : Header) : Except Refusal Entry → Header
  | .ok entry => header.apply entry
  | .error _ => header

/-- Each line is read by itself, and comes with the header as it stands behind the line. -/
def readings (header : Header) : List Line → List (Except Refusal Entry × Header)
  | [] => []
  | line :: rest =>
      let reading := Line.read line
      (reading, header.follow reading) :: (header.follow reading).readings rest

end Header

namespace Document

/-- An entry that speaks of the header is not a statement. -/
def locate? : Entry × Span → Option Located
  | (.statement statement, span) => some ⟨statement, span⟩
  | (.title _, _) => none
  | (.terminators _, _) => none

/-- The entries take effect on the header from the first to the last. -/
def ofEntries (header : Header) (entries : List (Entry × Span)) : Document where
  header := entries.foldl (fun header entry => header.apply entry.1) header
  statements := entries.filterMap locate?

/-- Reading stops at the first line that is refused. -/
def ofLines (header : Header) (lines : List Line) : Except Refusal Document :=
  (lines.mapM fun line => (Line.read line).map fun entry => (entry, Line.span line)).map
    (ofEntries header)

end Document

end Lifeline
