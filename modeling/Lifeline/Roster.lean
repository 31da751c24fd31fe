import Lifeline.Diagram

/-! A roster keeps the columns of a diagram in their order and knows who is visible. -/

namespace Lifeline

/-- The outer columns are left out of the list, and so nothing can be placed outside of them. -/
structure Roster where
  inner : List Column := []
  visible : List String := []
  deriving DecidableEq

namespace Roster

/-- The outer columns frame all others. -/
def columns (roster : Roster) : List Column :=
  .outer .left :: roster.inner ++ [.outer .right]

/-- A name that has a column keeps it; any other name gets the last column. -/
def register (roster : Roster) (name : String) : Roster :=
  if Column.named name ∈ roster.columns then roster
  else { roster with inner := roster.inner ++ [Column.named name] }

def registerAll (roster : Roster) (names : List String) : Roster := names.foldl register roster

/-- These are the names, each once, whose participants can undergo a change. -/
def changeable (roster : Roster) (change : Change) (names : List String) : List String :=
  (names.filter fun name =>
    !Column.isReserved name && roster.visible.contains name == change.fromVisible).eraseDups

/-- Visibility is added or taken away. -/
def change (roster : Roster) (names : List String) : Change → Roster
  | .enter => { roster with visible := roster.visible ++ names }
  | .leave => { roster with visible := roster.visible.filter fun name => !names.contains name }

/-- These are the visible participants in the order of their columns. -/
def visibleInOrder (roster : Roster) : List String :=
  roster.inner.filterMap fun column =>
    match column with
    | .participant name => if roster.visible.contains name then some name else none
    | _ => none

/-- This function puts a column in front of the first one that is used. -/
def insertBeforeFirst (used : List Column) (edge : Column) : List Column → List Column
  | [] => []
  | column :: rest =>
      if used.contains column then edge :: column :: rest
      else column :: insertBeforeFirst used edge rest

/-- This function puts a column behind the last one that is used, which is the first one from the
right. -/
def insertBehindLast (used : List Column) (edge : Column) (columns : List Column) : List Column :=
  (insertBeforeFirst used edge columns.reverse).reverse

/-- The edges of a block stand around the columns that it uses. A block that uses none of them
spans the whole diagram. -/
def enclose (roster : Roster) (block : Nat) (used : List Column) : Roster :=
  let left := Column.edge block .left
  let right := Column.edge block .right
  if roster.inner.any used.contains then
    { roster with
      inner := insertBehindLast used right (insertBeforeFirst used left roster.inner) }
  else { roster with inner := left :: roster.inner ++ [right] }

/-- A name that has a column is not registered again. -/
theorem register_of_mem {roster : Roster} {name : String}
    (known : Column.named name ∈ roster.columns) : roster.register name = roster := by
  simp [register, known]

/-- A name that is registered has a column. -/
theorem named_mem_columns_register (roster : Roster) (name : String) :
    Column.named name ∈ (roster.register name).columns := by
  unfold register
  split
  · assumption
  · simp [columns]

end Roster

end Lifeline
