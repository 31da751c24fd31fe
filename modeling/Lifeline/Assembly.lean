import Lifeline.Assembly.Draft
import Lifeline.Assembly.Fault
import Lifeline.Document
import Lifeline.Roster

/-! A document becomes a diagram statement by statement. -/

namespace Lifeline

/-- A frame is an open block. It keeps its closed sections, the heading of the section that is being
drafted, and the draft around the block, which waits for the block to close. -/
structure Frame where
  number : Nat
  mode : BlockMode
  opening : Origin
  closed : List (Section Stage)
  sectionMode : BlockMode
  sectionLabel : String
  outer : Draft

/-- The section that is being drafted comes behind the closed ones. -/
def Frame.sections (frame : Frame) (stages : List Stage) : List (Section Stage) :=
  frame.closed ++ [⟨frame.sectionMode, frame.sectionLabel, stages⟩]

/-- An assembly is a diagram in the making. The innermost frame comes first, and the draft belongs
to it, or to the diagram itself if no block is open. -/
structure Assembly where
  roster : Roster := {}
  markers : List String := []
  draft : Draft := {}
  frames : List Frame := []
  blocks : Nat := 0
  taken : Nat := 0

namespace Assembly

def register (assembly : Assembly) (names : List String) : Assembly :=
  { assembly with roster := assembly.roster.registerAll names }

def place (assembly : Assembly) (stage : Stage) : Assembly :=
  { assembly with draft := assembly.draft.push stage }

/-- Columns of names are used in the innermost draft. -/
def use (assembly : Assembly) (names : List String) : Assembly :=
  { assembly with draft := assembly.draft.use (names.map Column.named) }

/-- A change is brought upon those of the named participants that can undergo it. -/
def change (assembly : Assembly) (change : Change) (names : List String) (mode : Terminator) :
    Assembly :=
  match assembly.roster.changeable change names with
  | [] => assembly
  | first :: rest =>
      let changed := first :: rest
      { assembly with
        roster := assembly.roster.change changed change
        draft := (assembly.draft.use (changed.map Column.named)).change change changed mode }

/-- This function registers the participants that a command lists, none of whom may be reserved. -/
def declare (assembly : Assembly) (origin : Origin) (command : Command) (names : List String) :
    Except Fault Assembly :=
  match names.find? Column.isReserved with
  | some name => .error (.reservedName origin command name)
  | none => .ok (assembly.register names)

/-- All whom a stage speaks of are registered and visible where it stands. -/
def speak (assembly : Assembly) (names : List String) (stage : Stage) : Assembly :=
  (((assembly.register names).change .enter names .box).use names).place stage

/-- Both ends of a message are visible when it is sent, and those flagged to depart end with it. -/
def message (assembly : Assembly) (sender receiver : Mention) (arrow : Arrow) (label : String) :
    Assembly :=
  let departing := [sender, receiver].filter fun mention => mention.flag == some .depart
  (assembly.speak [sender.name, receiver.name]
    (.message sender.name receiver.name arrow label)).change .leave
      (departing.map Mention.name) .cross

/-- A note that mentions nobody is about the outer columns at its position. -/
def note (assembly : Assembly) (position : NotePosition) (style : NoteStyle)
    (mentions : List Mention) (label : String) : Assembly :=
  let names := if mentions.isEmpty then position.outerNames else mentions.map Mention.name
  assembly.speak names (.note position style names label)

/-- A new block takes the next number, whether or not it is kept later. -/
def openBlock (assembly : Assembly) (origin : Origin) (mode : BlockMode) (label : String) :
    Assembly :=
  { assembly with
    draft := {}
    blocks := assembly.blocks + 1
    frames :=
      { number := assembly.blocks
        mode := mode
        opening := origin
        closed := []
        sectionMode := mode
        sectionLabel := label
        outer := assembly.draft } :: assembly.frames }

/-- The section of a frame is closed, and the draft goes on to the next one. It keeps what the
block has used so far. -/
def divide (assembly : Assembly) (frame : Frame) (outer : List Frame) (mode : BlockMode)
    (label : String) : Assembly :=
  { assembly with
    draft := { assembly.draft with recent := [] }
    frames :=
      { frame with
        closed := frame.sections assembly.draft.stages
        sectionMode := mode
        sectionLabel := label } :: outer }

/-- Only the innermost block can be split. -/
def splitBlock (assembly : Assembly) (origin : Origin) (mode : BlockMode) (label : String) :
    Except Fault Assembly :=
  match assembly.frames with
  | [] => .error (.straySplit origin)
  | frame :: outer =>
      if frame.mode.isSplittable then .ok (assembly.divide frame outer mode label)
      else .error (.unsplittable origin frame.mode frame.opening.span)

/-- A block that is kept gets its edges around all that it uses and becomes a stage of the draft
around it, which uses its columns and its edges as well. -/
def keep (assembly : Assembly) (frame : Frame) (outer : List Frame) : Assembly :=
  let left := Column.edge frame.number .left
  let right := Column.edge frame.number .right
  { assembly with
    roster := assembly.roster.enclose frame.number assembly.draft.used
    draft := (frame.outer.use (assembly.draft.used ++ [left, right])).push
      (.block left.name right.name (frame.sections assembly.draft.stages))
    frames := outer }

/-- A block that is dropped leaves only its registrations and its markers. -/
def drop (assembly : Assembly) (frame : Frame) (outer : List Frame) : Assembly :=
  { assembly with draft := frame.outer, frames := outer }

/-- A block with nothing on the page is dropped when it closes. -/
def closeBlock (assembly : Assembly) (origin : Origin) : Except Fault Assembly :=
  match assembly.frames with
  | [] => .error (.strayEnd origin)
  | frame :: outer =>
      .ok (if assembly.draft.live then assembly.keep frame outer else assembly.drop frame outer)

/-- A jump without a target needs no marker; any other needs its marker to stand before it. -/
def jump (assembly : Assembly) (origin : Origin) (target : String) : Except Fault Assembly :=
  if target = "" ∨ target ∈ assembly.markers then .ok (assembly.place (.jump target))
  else .error (.undefinedMarker origin target)

/-- A mark is placed, and jumps can lead to it from then on. -/
def mark (assembly : Assembly) (name : String) : Assembly :=
  { assembly.place (.mark name) with markers := name :: assembly.markers }

/-- This function carries out one statement. -/
def perform (assembly : Assembly) (origin : Origin) : Statement → Except Fault Assembly
  | .define mentions => assembly.declare origin .define (mentions.map Mention.name)
  | .enter mentions mode =>
      let names := mentions.map Mention.name
      (assembly.declare origin .enter names).map fun next => next.change .enter names mode
  | .leave mentions mode =>
      let names := mentions.map Mention.name
      (assembly.declare origin .leave names).map fun next => next.change .leave names mode
  | .message sender receiver arrow label => .ok (assembly.message sender receiver arrow label)
  | .note position style mentions label => .ok (assembly.note position style mentions label)
  | .mark name => .ok (assembly.mark name)
  | .jump target => assembly.jump origin target
  | .openBlock mode label => .ok (assembly.openBlock origin mode label)
  | .splitBlock mode label => assembly.splitBlock origin mode label
  | .closeBlock => assembly.closeBlock origin

/-- A statement is numbered by how many have been taken before it. -/
def take (assembly : Assembly) (located : Located) : Except Fault Assembly :=
  (assembly.perform ⟨assembly.taken + 1, located.span⟩ located.statement).map fun next =>
    { next with taken := assembly.taken + 1 }

/-- This function takes statements one after another and stops at the first fault. -/
def run (assembly : Assembly) (statements : List Located) : Except Fault Assembly :=
  statements.foldlM take assembly

/-- At the end no block may be open, and everyone still visible ends. -/
def finish (assembly : Assembly) (header : Header) : Except Fault Diagram :=
  match assembly.frames with
  | frame :: _ => .error (.unclosedBlock frame.opening frame.mode)
  | [] =>
      let ended := assembly.change .leave assembly.roster.visibleInOrder header.terminators
      .ok ⟨header, ended.roster.columns.map Column.name, ended.draft.stages⟩

/-- Running a document in two parts makes no difference. -/
theorem run_append (assembly : Assembly) (first second : List Located) :
    assembly.run (first ++ second) = (assembly.run first).bind fun next => next.run second := by
  simp only [run, List.foldlM_append]
  rfl

end Assembly

/-- This function makes the diagram of a document. -/
def Document.assemble (document : Document) : Except Fault Diagram :=
  (Assembly.run {} document.statements).bind fun assembly => assembly.finish document.header

end Lifeline
