/-! The columns of a diagram stand for its frame, its participants and the edges of its blocks. -/

namespace Lifeline

inductive Side where
  | left
  | right
  deriving DecidableEq

namespace Side

/-- This bracket marks the side. It is also the whole name of the outer column on that side. -/
def bracket : Side → String
  | .left => "["
  | .right => "]"

end Side

/-- A column is told apart by what it stands for, since two columns may bear one name. -/
inductive Column where
  | outer (side : Side)
  | participant (name : String)
  | edge (block : Nat) (side : Side)
  deriving DecidableEq

namespace Column

/-- The edges of a block bear the block's number and the bracket of their side. -/
def name : Column → String
  | .outer side => side.bracket
  | .participant name => name
  | .edge block side => "__BLOCK" ++ toString block ++ side.bracket

/-- The names of the outer columns are reserved: no participant can bear one. -/
def isReserved (name : String) : Bool :=
  name == Side.left.bracket || name == Side.right.bracket

/-- The reserved names are the two brackets. -/
theorem isReserved_iff {name : String} : isReserved name = true ↔ name = "[" ∨ name = "]" := by
  simp [isReserved, Side.bracket]

/-- This is the column that a name in a source stands for. -/
def named (name : String) : Column :=
  if name = Side.left.bracket then .outer .left
  else if name = Side.right.bracket then .outer .right
  else .participant name

/-- The column that a name stands for bears the name. -/
theorem name_named (name : String) : (named name).name = name := by
  unfold named
  split
  · next equal => exact equal.symm
  · split
    · next equal => exact equal.symm
    · rfl

end Column

end Lifeline
