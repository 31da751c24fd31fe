import Lifeline.Assembly
import Lifeline.Ledger

/-! A work carries out the statements of a document with numbers for columns. -/

namespace Lifeline

/-- A nest holds the stages of a section while it grows, the newest first, and the numbers of the
columns that they use. -/
structure Nest where
  recent : List Stage := []
  used : List Nat := []
  live : Bool := false

namespace Nest

def stages (nest : Nest) : List Stage := nest.recent.reverse

/-- A stage that is drawn makes its nest live. -/
def push (nest : Nest) (stage : Stage) : Nest :=
  { nest with recent := stage :: nest.recent, live := nest.live || stage.isDrawn }

/-- Participants that begin, or end, directly behind others in the same mode join their stage. -/
def change (nest : Nest) (change : Change) (names : List String) (mode : Terminator) : Nest :=
  match nest.recent with
  | [] => nest.push (change.stage names mode)
  | newest :: older =>
      match change.names? mode newest with
      | some earlier =>
          { nest with
            recent := change.stage (Draft.merge earlier names) mode :: older
            live := true }
      | none => nest.push (change.stage names mode)

/-- No number is counted twice. -/
def extend (nest : Nest) (numbers : List Nat) : Nest :=
  { nest with
    used := numbers.foldl
      (fun used number => if used.contains number then used else used ++ [number]) nest.used }

end Nest

/-- A bay is an open block of a work, with the nest around it. -/
structure Bay where
  number : Nat
  mode : BlockMode
  opening : Origin
  closed : List (Section Stage)
  sectionMode : BlockMode
  sectionLabel : String
  outer : Nest

def Bay.sections (bay : Bay) (stages : List Stage) : List (Section Stage) :=
  bay.closed ++ [⟨bay.sectionMode, bay.sectionLabel, stages⟩]

structure Work where
  ledger : Ledger := .start
  markers : List String := []
  nest : Nest := {}
  bays : List Bay := []
  blocks : Nat := 0
  taken : Nat := 0

namespace Work

def place (work : Work) (stage : Stage) : Work := { work with nest := work.nest.push stage }

/-- Numbers are marked as used in the innermost nest. -/
def use (work : Work) (numbers : List Nat) : Except Slip Work :=
  (work.ledger.markUsed work.nest.used numbers).map fun used =>
    { work with nest := { work.nest with used } }

/-- A change is brought upon those of the numbered participants that can undergo it. -/
def change (work : Work) (change : Change) (numbers : List Nat) (mode : Terminator) :
    Except Slip Work :=
  (work.ledger.select change numbers).bind fun changed =>
    if changed.isEmpty then .ok work
    else
      (changed.foldlM (fun (ledger : Ledger) number => ledger.setVisible (!change.fromVisible) number)
          work.ledger).bind fun ledger =>
        ({ work with ledger }.use changed).bind fun (next : Work) =>
          (changed.mapM next.ledger.name).map fun names =>
            { next with nest := next.nest.change change names mode }

/-- The participants that a command lists are looked up until one of them is reserved. -/
def declare (work : Work) (origin : Origin) (command : Command) :
    List String → Except Slip (Work × List Nat)
  | [] => .ok (work, [])
  | name :: rest =>
      if Column.isReserved name then .error (.fault (.reservedName origin command name))
      else
        (work.ledger.intern name).bind fun (ledger, number) =>
          (declare { work with ledger } origin command rest).map fun (last, numbers) =>
            (last, number :: numbers)

/-- All whom a stage speaks of are looked up and visible where it stands. -/
def speak (work : Work) (names : List String) (stage : Stage) : Except Slip (Work × List Nat) :=
  (work.ledger.internAll names).bind fun (ledger, numbers) =>
    ({ work with ledger }.change .enter numbers .box).bind fun (begun : Work) =>
      (begun.use numbers).map fun (drawn : Work) => (drawn.place stage, numbers)

/-- Both ends of a message are visible when it is sent, and those flagged to depart end with it. -/
def message (work : Work) (sender receiver : Mention) (arrow : Arrow) (label : String) :
    Except Slip Work :=
  (work.speak [sender.name, receiver.name]
      (.message sender.name receiver.name arrow label)).bind fun (spoken, numbers) =>
    let departing := (numbers.zip [sender, receiver]).filter fun pair => pair.2.flag == some .depart
    spoken.change .leave (departing.map Prod.fst) .cross

/-- A note that names nobody speaks of outer columns. -/
def note (work : Work) (position : NotePosition) (style : NoteStyle) (mentions : List Mention)
    (label : String) : Except Slip Work :=
  let names := if mentions.isEmpty then position.outerNames else mentions.map Mention.name
  (work.speak names (.note position style names label)).map Prod.fst

/-- An opened block gets the next number and an empty nest. -/
def openBlock (work : Work) (origin : Origin) (mode : BlockMode) (label : String) : Work :=
  { work with
    nest := {}
    blocks := work.blocks + 1
    bays :=
      { number := work.blocks
        mode := mode
        opening := origin
        closed := []
        sectionMode := mode
        sectionLabel := label
        outer := work.nest } :: work.bays }

/-- A split closes the section that is open. -/
def divide (work : Work) (bay : Bay) (outer : List Bay) (mode : BlockMode) (label : String) :
    Work :=
  { work with
    nest := { work.nest with recent := [] }
    bays :=
      { bay with
        closed := bay.sections work.nest.stages
        sectionMode := mode
        sectionLabel := label } :: outer }

/-- Only an alternative can be split. -/
def splitBlock (work : Work) (origin : Origin) (mode : BlockMode) (label : String) :
    Except Slip Work :=
  match work.bays with
  | [] => .error (.fault (.straySplit origin))
  | bay :: outer =>
      if bay.mode.isSplittable then .ok (work.divide bay outer mode label)
      else .error (.fault (.unsplittable origin bay.mode bay.opening.span))

/-- The edges of a block are entered before they are placed. -/
def enterEdges (work : Work) (bay : Bay) : Ledger × Nat × Nat :=
  let (next, left) := work.ledger.push (Column.edge bay.number .left).name .edge
  let (last, right) := next.push (Column.edge bay.number .right).name .edge
  (last, left, right)

def drop (work : Work) (bay : Bay) (outer : List Bay) : Work :=
  { work with nest := bay.outer, bays := outer }

/-- A jump to nowhere is allowed, and one to a mark needs the mark in front of it. -/
def jump (work : Work) (origin : Origin) (target : String) : Except Slip Work :=
  if target = "" ∨ target ∈ work.markers then .ok (work.place (.jump target))
  else .error (.fault (.undefinedMarker origin target))

def mark (work : Work) (name : String) : Work :=
  { work.place (.mark name) with markers := name :: work.markers }

section Running

variable (spare : Nat → Except Slip Nat)

/-- A block that is kept gets its edges around all that it uses and becomes a stage of the nest
around it, which uses its columns and its edges as well. -/
def keep (work : Work) (bay : Bay) (outer : List Bay) : Except Slip Work :=
  let (ledger, left, right) := work.enterEdges bay
  (ledger.enclose spare left right work.nest.used).map fun placed =>
    { work with
      ledger := placed
      nest := ((bay.outer.extend work.nest.used).extend [left, right]).push
        (.block (Column.edge bay.number .left).name (Column.edge bay.number .right).name
          (bay.sections work.nest.stages))
      bays := outer }

/-- A block that leaves nothing on the page is dropped when it closes. -/
def closeBlock (work : Work) (origin : Origin) : Except Slip Work :=
  match work.bays with
  | [] => .error (.fault (.strayEnd origin))
  | bay :: outer => if work.nest.live then work.keep spare bay outer else .ok (work.drop bay outer)

/-- This function carries out one statement. -/
def perform (work : Work) (origin : Origin) : Statement → Except Slip Work
  | .define mentions => (work.declare origin .define (mentions.map Mention.name)).map Prod.fst
  | .enter mentions mode =>
      (work.declare origin .enter (mentions.map Mention.name)).bind fun (next, numbers) =>
        next.change .enter numbers mode
  | .leave mentions mode =>
      (work.declare origin .leave (mentions.map Mention.name)).bind fun (next, numbers) =>
        next.change .leave numbers mode
  | .message sender receiver arrow label => work.message sender receiver arrow label
  | .note position style mentions label => work.note position style mentions label
  | .mark name => .ok (work.mark name)
  | .jump target => work.jump origin target
  | .openBlock mode label => .ok (work.openBlock origin mode label)
  | .splitBlock mode label => work.splitBlock origin mode label
  | .closeBlock => work.closeBlock spare origin

/-- A statement is numbered from one on. -/
def take (work : Work) (located : Located) : Except Slip Work :=
  (work.perform spare ⟨work.taken + 1, located.span⟩ located.statement).map fun next =>
    { next with taken := work.taken + 1 }

def run (work : Work) (statements : List Located) : Except Slip Work :=
  statements.foldlM (take spare) work

end Running

/-- At the end everyone still visible ends. -/
def ended (work : Work) (header : Header) : Except Slip Work :=
  work.ledger.visibleInOrder.bind fun numbers => work.change .leave numbers header.terminators

/-- The work must not end inside of a block. -/
def finish (work : Work) (header : Header) : Except Slip Diagram :=
  match work.bays with
  | bay :: _ => .error (.fault (.unclosedBlock bay.opening bay.mode))
  | [] =>
      (work.ended header).bind fun last =>
        last.ledger.names.map fun columns => ⟨header, columns, last.nest.stages⟩

end Work

/-- This function makes the diagram of a document by numbers. -/
def Document.assembleByNumbers (spare : Nat → Except Slip Nat) (document : Document) :
    Except Slip Diagram :=
  (Work.run spare {} document.statements).bind fun (work : Work) =>
    work.finish document.header

end Lifeline
