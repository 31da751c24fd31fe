import Lifeline.Column

/-! A diagram is a tree of stages under the columns of its participants. -/

namespace Lifeline

/-- A terminator is the figure that a lifeline begins or ends with. -/
inductive Terminator where
  | none
  | box
  | cross
  | bar
  deriving DecidableEq

namespace Terminator

def name : Terminator → String
  | .none => "none"
  | .box => "box"
  | .cross => "cross"
  | .bar => "bar"

def all : List Terminator := [.none, .box, .cross, .bar]

def ofName? (word : String) : Option Terminator := all.find? fun mode => mode.name == word

/-- This sentence refuses a word that names no terminator. -/
def refusal (word : String) : String := "unknown terminator mode `" ++ word ++ "`"

/-- A terminator is known by its name. -/
theorem ofName?_name (mode : Terminator) : ofName? mode.name = some mode := by
  cases mode <;> rfl

end Terminator

inductive LineStyle where
  | solid
  | dash
  deriving DecidableEq

def LineStyle.name : LineStyle → String
  | .solid => "solid"
  | .dash => "dash"

/-- An arrow is a line between two columns with a head at neither, one or both of its ends. -/
structure Arrow where
  style : LineStyle
  left : Bool
  right : Bool
  deriving DecidableEq

namespace Arrow

/-- This arrow is drawn where nothing else is asked for. -/
def plain : Arrow := ⟨.solid, false, true⟩

/-- An arrow is written with one dash if it is solid and with two if it is dashed. -/
def ofOperator? : String → Option Arrow
  | "->" => some ⟨.solid, false, true⟩
  | "<-" => some ⟨.solid, true, false⟩
  | "<->" => some ⟨.solid, true, true⟩
  | "-->" => some ⟨.dash, false, true⟩
  | "<--" => some ⟨.dash, true, false⟩
  | "<-->" => some ⟨.dash, true, true⟩
  | _ => none

end Arrow

/-- The mode of a block or of one of its sections says when its stages take place. -/
inductive BlockMode where
  | alternative
  | otherwise
  | loop
  deriving DecidableEq

namespace BlockMode

def keyword : BlockMode → String
  | .alternative => "if"
  | .otherwise => "else"
  | .loop => "repeat"

/-- Only an alternative can be split into further sections. -/
def isSplittable : BlockMode → Bool
  | .alternative => true
  | .otherwise => false
  | .loop => false

end BlockMode

inductive NotePosition where
  | left
  | right
  | over
  | between
  deriving DecidableEq

namespace NotePosition

def name : NotePosition → String
  | .left => "left"
  | .right => "right"
  | .over => "over"
  | .between => "between"

/-- A note that names nobody is placed by the outer columns. -/
def outerNames : NotePosition → List String
  | .left => [Side.left.bracket]
  | .right => [Side.right.bracket]
  | .over => [Side.left.bracket, Side.right.bracket]
  | .between => [Side.left.bracket, Side.right.bracket]

end NotePosition

inductive NoteStyle where
  | note
  | text
  | state
  deriving DecidableEq

def NoteStyle.keyword : NoteStyle → String
  | .note => "note"
  | .text => "text"
  | .state => "state"

/-- A section of a block holds the stages under one heading. -/
structure Section (Item : Type) where
  mode : BlockMode
  label : String
  stages : List Item

/-- A stage is one step of a diagram. A block names the columns at its two edges. -/
inductive Stage where
  | mark (name : String)
  | jump (target : String)
  | message (sender receiver : String) (arrow : Arrow) (label : String)
  | enter (names : List String) (mode : Terminator)
  | leave (names : List String) (mode : Terminator)
  | note (position : NotePosition) (style : NoteStyle) (names : List String) (label : String)
  | block (left right : String) (sections : List (Section Stage))

/-- A change begins or ends the lifelines of participants. -/
inductive Change where
  | enter
  | leave
  deriving DecidableEq

namespace Change

def stage : Change → List String → Terminator → Stage
  | .enter, names, mode => .enter names mode
  | .leave, names, mode => .leave names mode

/-- These are the names of a stage that brings the same change in the same mode. -/
def names? (change : Change) (mode : Terminator) : Stage → Option (List String)
  | .enter names last => if change = .enter ∧ last = mode then some names else none
  | .leave names last => if change = .leave ∧ last = mode then some names else none
  | _ => none

/-- Only hidden participants can begin, and only visible ones can end. -/
def fromVisible : Change → Bool
  | .enter => false
  | .leave => true

end Change

/-- Marks and jumps steer the time of a drawing and leave nothing on the page. -/
def Stage.isDrawn : Stage → Bool
  | .mark _ => false
  | .jump _ => false
  | _ => true

/-- The header holds what a diagram says about itself as a whole. -/
structure Header where
  title : String := ""
  terminators : Terminator := .none
  deriving DecidableEq

structure Diagram where
  header : Header
  columns : List String
  stages : List Stage

/-- The empty diagram has its outer columns and no stages. -/
def Diagram.empty (header : Header) : Diagram :=
  ⟨header, [Side.left.bracket, Side.right.bracket], []⟩

end Lifeline
