import Lifeline.Document
import Lifeline.Proofs.Visibility

/-! An outline nests the statements of a document by its blocks. -/

namespace Lifeline

namespace Statement

/-- These participants are visible behind a statement. -/
def shown (visible : Finset String) : Statement → Finset String
  | .enter mentions _ => visible ∪ Column.participants (mentions.map Mention.name)
  | .leave mentions _ => visible \ Column.participants (mentions.map Mention.name)
  | .message sender receiver _ _ =>
      let departing := [sender, receiver].filter fun mention => mention.flag == some .depart
      (visible ∪ Column.participants [sender.name, receiver.name]) \
        Column.participants (departing.map Mention.name)
  | .note _ _ mentions _ => visible ∪ Column.participants (mentions.map Mention.name)
  | _ => visible

def speaks : Statement → Bool
  | .message _ _ _ _ => true
  | .note _ _ _ _ => true
  | _ => false

/-- A message or a note is drawn, and so is whatever changes who is visible. -/
def isDrawn (visible : Finset String) (statement : Statement) : Bool :=
  statement.speaks || decide (statement.shown visible ≠ visible)

/-- A plain statement does not concern the blocks. -/
def isPlain : Statement → Bool
  | .openBlock _ _ => false
  | .splitBlock _ _ => false
  | .closeBlock => false
  | _ => true

/-- This is the number of the next block behind a statement. -/
def count (blocks : Nat) : Statement → Nat
  | .openBlock _ _ => blocks + 1
  | _ => blocks

/-- These are the stages that a statement by itself asks for. -/
def stages : Statement → List Stage
  | .message sender receiver arrow label => [.message sender.name receiver.name arrow label]
  | .note position style mentions label =>
      [.note position style
        (if mentions.isEmpty then position.outerNames else mentions.map Mention.name) label]
  | .mark name => [.mark name]
  | .jump target => [.jump target]
  | _ => []

/-- A plain statement opens no block. -/
theorem count_of_isPlain {statement : Statement} (plain : statement.isPlain = true)
    (blocks : Nat) : statement.count blocks = blocks := by
  cases statement <;> first | rfl | contradiction

/-- A silent statement that changes nobody leaves nothing on the page. -/
theorem isDrawn_of_shown_eq {statement : Statement} {visible : Finset String}
    (silent : statement.speaks = false) (same : statement.shown visible = visible) :
    statement.isDrawn visible = false := by
  rw [isDrawn, silent, same]
  simp

/-- The outer columns, which place a note that mentions nobody, are no participants. -/
theorem participants_placed (position : NotePosition) (mentions : List Mention) :
    Column.participants
        (if mentions.isEmpty then position.outerNames else mentions.map Mention.name) =
      Column.participants (mentions.map Mention.name) := by
  cases mentions with
  | nil => cases position <;> rfl
  | cons mention rest => rfl

end Statement

/-- A beat is a statement with what depends on those in front of it: how many blocks they open, and
whether the statement is drawn. -/
structure Beat where
  statement : Statement
  blocks : Nat
  drawn : Bool

/-- The statements are gone through once from the first to the last. -/
def Beat.ofStatements (blocks : Nat) (visible : Finset String) : List Statement → List Beat
  | [] => []
  | statement :: rest =>
      ⟨statement, blocks, statement.isDrawn visible⟩ ::
        ofStatements (statement.count blocks) (statement.shown visible) rest

/-- An outline is a statement, or a block with its number. -/
inductive Outline where
  | plain (beat : Beat)
  | block (number : Nat) (sections : List (Section Outline))

/-- This is a block of a diagram, unless nothing in it is drawn. -/
def Stage.blockIf (drawn : Bool) (number : Nat) (sections : List (Section Stage)) : List Stage :=
  if drawn then
    [.block (Column.edge number .left).name (Column.edge number .right).name sections]
  else []

namespace Outline

mutual

/-- An outline is drawn if anything inside of it is. -/
def isDrawn : Outline → Bool
  | .plain beat => beat.drawn
  | .block _ sections => isDrawnSections sections

def isDrawnSections : List (Section Outline) → Bool
  | [] => false
  | ⟨_, _, items⟩ :: rest => isDrawnAll items || isDrawnSections rest

def isDrawnAll : List Outline → Bool
  | [] => false
  | item :: rest => isDrawn item || isDrawnAll rest

end

mutual

/-- A block that is not drawn leaves nothing behind, whatever is inside of it. -/
def stages : Outline → List Stage
  | .plain beat => beat.statement.stages
  | .block number sections =>
      Stage.blockIf (isDrawnSections sections) number (stagesSections sections)

def stagesSections : List (Section Outline) → List (Section Stage)
  | [] => []
  | ⟨mode, label, items⟩ :: rest => ⟨mode, label, stagesAll items⟩ :: stagesSections rest

def stagesAll : List Outline → List Stage
  | [] => []
  | item :: rest => stages item ++ stagesAll rest

end

end Outline

/-- A nesting holds the outlines up to the place where the block around them is split or closed, or
where the document ends, and then what follows there. -/
inductive Nesting where
  | ended (items : List Outline)
  | split (items : List Outline) (mode : BlockMode) (label : String) (rest : Nesting)
  | closed (items : List Outline) (rest : Nesting)

namespace Nesting

/-- The outline comes in front of all others. -/
def cons (item : Outline) : Nesting → Nesting
  | .ended items => .ended (item :: items)
  | .split items mode label rest => .split (item :: items) mode label rest
  | .closed items rest => .closed (item :: items) rest

/-- These are the sections of a block from the one with the given heading on, and what follows
behind the block. A block that is never closed has none. -/
def gather (mode : BlockMode) (label : String) : Nesting → Option (List (Section Outline) × Nesting)
  | .ended _ => none
  | .split items nextMode nextLabel rest =>
      (rest.gather nextMode nextLabel).map fun found => (⟨mode, label, items⟩ :: found.1, found.2)
  | .closed items rest => some ([⟨mode, label, items⟩], rest)

/-- The beats are nested from where a block, a section or the document begins. -/
def ofBeats : List Beat → Option Nesting
  | [] => some (.ended [])
  | beat :: rest =>
      match beat.statement with
      | .openBlock mode label =>
          (ofBeats rest).bind fun inside => (inside.gather mode label).map fun found =>
            found.2.cons (.block beat.blocks found.1)
      | .splitBlock mode label => (ofBeats rest).map (.split [] mode label)
      | .closeBlock => (ofBeats rest).map (.closed [])
      | _ => (ofBeats rest).map (cons (.plain beat))

section Blocks

variable (blocks : Nat) (visible : Finset String) (rest : List Statement)

end Blocks

end Nesting

/-- These are the outlines of a document, unless its blocks are not well nested. -/
def Outline.ofStatements (statements : List Statement) : Option (List Outline) :=
  match Nesting.ofBeats (Beat.ofStatements 0 ∅ statements) with
  | some (.ended items) => some items
  | _ => none

namespace Stage

mutual

/-- This is what is left of a stage without the beginnings and ends of participants. -/
def erase : Stage → List Stage
  | .enter _ _ => []
  | .leave _ _ => []
  | .block left right sections => [.block left right (eraseSections sections)]
  | stage => [stage]

def eraseSections : List (Section Stage) → List (Section Stage)
  | [] => []
  | ⟨mode, label, stages⟩ :: rest => ⟨mode, label, eraseAll stages⟩ :: eraseSections rest

def eraseAll : List Stage → List Stage
  | [] => []
  | stage :: rest => erase stage ++ eraseAll rest

end

theorem eraseAll_append (first second : List Stage) :
    eraseAll (first ++ second) = eraseAll first ++ eraseAll second := by
  induction first with
  | nil => rfl
  | cons stage rest ih => rw [List.cons_append, eraseAll, eraseAll, ih, List.append_assoc]

/-- A single stage is erased by itself. -/
theorem eraseAll_singleton (stage : Stage) : eraseAll [stage] = stage.erase := by
  rw [eraseAll, eraseAll, List.append_nil]

/-- A change of participants is erased. -/
theorem erase_change (change : Change) (names : List String) (mode : Terminator) :
    (change.stage names mode).erase = [] := by
  cases change <;> rw [Change.stage, erase]

end Stage

end Lifeline
