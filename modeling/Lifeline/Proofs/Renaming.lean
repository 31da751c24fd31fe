import Mathlib.Data.List.Basic
import Mathlib.Logic.Equiv.Basic
import Lifeline.Proofs.Moves

/-! What a document comes to does not depend on what its participants are called. -/

namespace Lifeline

/-- A naming keeps different names different. The names of outer columns and of the edges of blocks
stay as they are. -/
structure Renaming where
  apply : String → String
  injective : Function.Injective apply
  outer (side : Side) : apply side.bracket = side.bracket
  edge (block : Nat) (side : Side) :
    apply (Column.edge block side).name = (Column.edge block side).name

def Mention.renamed (naming : Renaming) (mention : Mention) : Mention :=
  { mention with name := naming.apply mention.name }

namespace Statement

/-- Labels, marks and the targets of jumps are no names of participants. -/
def renamed (naming : Renaming) : Statement → Statement
  | .define mentions => .define (mentions.map (Mention.renamed naming))
  | .enter mentions mode => .enter (mentions.map (Mention.renamed naming)) mode
  | .leave mentions mode => .leave (mentions.map (Mention.renamed naming)) mode
  | .message sender receiver arrow label =>
      .message (sender.renamed naming) (receiver.renamed naming) arrow label
  | .note position style mentions label =>
      .note position style (mentions.map (Mention.renamed naming)) label
  | .mark name => .mark name
  | .jump target => .jump target
  | .openBlock mode label => .openBlock mode label
  | .splitBlock mode label => .splitBlock mode label
  | .closeBlock => .closeBlock

end Statement

def Located.renamed (naming : Renaming) (located : Located) : Located :=
  { located with statement := located.statement.renamed naming }

/-- All statements are renamed, and the header stays. -/
def Document.renamed (naming : Renaming) (document : Document) : Document :=
  { document with statements := document.statements.map (Located.renamed naming) }

namespace Stage

mutual

def renamed (naming : Renaming) : Stage → Stage
  | .mark name => .mark name
  | .jump target => .jump target
  | .message sender receiver arrow label =>
      .message (naming.apply sender) (naming.apply receiver) arrow label
  | .enter names mode => .enter (names.map naming.apply) mode
  | .leave names mode => .leave (names.map naming.apply) mode
  | .note position style names label => .note position style (names.map naming.apply) label
  | .block left right sections =>
      .block (naming.apply left) (naming.apply right) (renamedSections naming sections)

def renamedSections (naming : Renaming) : List (Section Stage) → List (Section Stage)
  | [] => []
  | ⟨mode, label, stages⟩ :: rest =>
      ⟨mode, label, renamedAll naming stages⟩ :: renamedSections naming rest

def renamedAll (naming : Renaming) : List Stage → List Stage
  | [] => []
  | stage :: rest => renamed naming stage :: renamedAll naming rest

end

variable (naming : Renaming)

theorem renamedAll_eq_map (stages : List Stage) :
    renamedAll naming stages = stages.map (renamed naming) := by
  induction stages with
  | nil => rfl
  | cons stage rest ih => rw [renamedAll, ih, List.map_cons]

theorem renamedSections_append (first second : List (Section Stage)) :
    renamedSections naming (first ++ second) =
      renamedSections naming first ++ renamedSections naming second := by
  induction first with
  | nil => rfl
  | cons head rest ih =>
      rw [List.cons_append, renamedSections, renamedSections, ih, List.cons_append]

theorem isDrawn_renamed (stage : Stage) : (stage.renamed naming).isDrawn = stage.isDrawn := by
  cases stage <;> rfl

end Stage

/-- The columns and the stages are renamed, and the header stays. -/
def Diagram.renamed (naming : Renaming) (diagram : Diagram) : Diagram where
  header := diagram.header
  columns := diagram.columns.map naming.apply
  stages := Stage.renamedAll naming diagram.stages

/-- Different elements of a list stay different under an injective function. -/
theorem eraseDups_map {function : String → String} (injective : Function.Injective function)
    (names : List String) : (names.map function).eraseDups = names.eraseDups.map function := by
  induction size : names.length using Nat.strong_induction_on generalizing names with
  | _ count ih =>
      cases names with
      | nil => rfl
      | cons first rest =>
          have shorter := List.length_filter_le (fun name => !name == first) rest
          have same : (fun name => !name == function first) ∘ function =
              fun name => !name == first := by
            funext name
            simp [injective.eq_iff]
          rw [List.length_cons] at size
          rw [List.map_cons, List.eraseDups_cons, List.eraseDups_cons, List.map_cons,
            List.filter_map, same, ih _ (by omega) _ rfl]

/-- An injective function hides no item and makes up none. -/
theorem contains_map {A B : Type} [BEq A] [LawfulBEq A] [BEq B] [LawfulBEq B] {function : A → B}
    (injective : Function.Injective function) (items : List A) (item : A) :
    (items.map function).contains (function item) = items.contains item := by
  rw [Bool.eq_iff_iff, List.contains_iff_mem, List.contains_iff_mem,
    List.mem_map_of_injective injective]

/-- Two participants can take each other's name. -/
def Renaming.swap (first second : String)
    (free : ∀ name ∈ [first, second], Column.isReserved name = false)
    (plain : ∀ name ∈ [first, second], Column.isEdgeName name = false) : Renaming where
  apply := Equiv.swap first second
  injective := (Equiv.swap first second).injective
  outer side := by
    have reserved : Column.isReserved side.bracket = true := by cases side <;> rfl
    apply Equiv.swap_apply_of_ne_of_ne
    · rintro rfl
      simp [reserved] at free
    · rintro rfl
      simp [reserved] at free
  edge block side := by
    have special := Column.isEdgeName_name_edge block side
    apply Equiv.swap_apply_of_ne_of_ne
    · rintro rfl
      simp [special] at plain
    · rintro rfl
      simp [special] at plain

namespace Column

variable (naming : Renaming)

def renamed : Column → Column
  | .outer side => .outer side
  | .participant name => .participant (naming.apply name)
  | .edge block side => .edge block side

/-- Different columns have different new names. -/
theorem renamed_injective : Function.Injective (renamed naming) := by
  intro first second same
  cases first <;> cases second <;> simp_all [renamed, naming.injective.eq_iff]

/-- The name of a renamed column is the new one. -/
theorem name_renamed (column : Column) :
    (column.renamed naming).name = naming.apply column.name := by
  cases column with
  | outer side => exact (naming.outer side).symm
  | participant name => rfl
  | edge block side => exact (naming.edge block side).symm

/-- No other name becomes a bracket. -/
theorem apply_eq_bracket {name : String} {side : Side} :
    naming.apply name = side.bracket ↔ name = side.bracket := by
  constructor
  · intro same
    exact naming.injective (same.trans (naming.outer side).symm)
  · rintro rfl
    exact naming.outer side

/-- A new name is reserved exactly if the old one is. -/
theorem isReserved_apply (name : String) :
    isReserved (naming.apply name) = isReserved name := by
  rw [Bool.eq_iff_iff]
  simp only [isReserved, Bool.or_eq_true, beq_iff_eq, apply_eq_bracket]

/-- The brackets keep their names. -/
theorem apply_of_isReserved {name : String} (reserved : isReserved name = true) :
    naming.apply name = name := by
  rcases isReserved_iff.mp reserved with rfl | rfl
  · exact naming.outer .left
  · exact naming.outer .right

/-- A new name stands for the renamed column. -/
theorem named_apply (name : String) :
    named (naming.apply name) = (named name).renamed naming := by
  simp only [named, apply_eq_bracket]
  split
  · rfl
  · split <;> rfl

theorem map_named_apply (names : List String) :
    (names.map naming.apply).map named = (names.map named).map (renamed naming) := by
  simp [Function.comp_def, named_apply]

end Column

namespace Roster

variable (naming : Renaming)

def renamed (roster : Roster) : Roster where
  inner := roster.inner.map (Column.renamed naming)
  visible := roster.visible.map naming.apply

variable (roster : Roster)

theorem columns_renamed :
    (roster.renamed naming).columns = roster.columns.map (Column.renamed naming) := by
  simp [columns, renamed, Column.renamed]

theorem register_renamed (name : String) :
    (roster.renamed naming).register (naming.apply name) =
      (roster.register name).renamed naming := by
  simp only [register, columns_renamed, Column.named_apply,
    List.mem_map_of_injective (Column.renamed_injective naming)]
  split
  · rfl
  · simp [renamed]

/-- New names are registered as the old ones are. -/
theorem registerAll_renamed (names : List String) :
    (roster.renamed naming).registerAll (names.map naming.apply) =
      (roster.registerAll names).renamed naming := by
  induction names generalizing roster with
  | nil => rfl
  | cons name rest ih =>
      rw [List.map_cons, registerAll, List.foldl_cons, register_renamed]
      exact ih (roster.register name)

/-- Whoever can undergo a change still can under another name. -/
theorem changeable_renamed (change : Change) (names : List String) :
    (roster.renamed naming).changeable change (names.map naming.apply) =
      (roster.changeable change names).map naming.apply := by
  have same : (fun name => !Column.isReserved name &&
        (roster.renamed naming).visible.contains name == change.fromVisible) ∘ naming.apply =
      fun name => !Column.isReserved name &&
        roster.visible.contains name == change.fromVisible := by
    funext name
    simp only [Function.comp_apply, Column.isReserved_apply, renamed,
      contains_map naming.injective]
  rw [changeable, List.filter_map, same, eraseDups_map naming.injective, changeable]

theorem change_renamed (change : Change) (names : List String) :
    (roster.renamed naming).change (names.map naming.apply) change =
      (roster.change names change).renamed naming := by
  cases change with
  | enter => simp [Roster.change, renamed]
  | leave =>
      have same : (fun name => !(names.map naming.apply).contains name) ∘ naming.apply =
          fun name => !names.contains name := by
        funext name
        simp only [Function.comp_apply, contains_map naming.injective]
      simp only [Roster.change, renamed, List.filter_map, same]

theorem participants_renamed :
    (roster.renamed naming).participants = roster.participants.map naming.apply := by
  have same (column : Column) : (column.renamed naming).participant? =
      column.participant?.map naming.apply := by
    cases column <;> rfl
  rw [participants, renamed, List.filterMap_map, participants, List.map_filterMap]
  simp [same]

/-- The same participants are visible, in the same order. -/
theorem visibleInOrder_renamed :
    (roster.renamed naming).visibleInOrder = roster.visibleInOrder.map naming.apply := by
  rw [visibleInOrder_eq_filter, visibleInOrder_eq_filter, participants_renamed, List.filter_map]
  simp only [renamed, Function.comp_def, contains_map naming.injective]

/-- The left edge has the same place among renamed columns. -/
theorem insertBeforeFirst_map {function : Column → Column} (injective : Function.Injective function)
    (used : List Column) (edge : Column) (columns : List Column) :
    insertBeforeFirst (used.map function) (function edge) (columns.map function) =
      (insertBeforeFirst used edge columns).map function := by
  induction columns with
  | nil => rfl
  | cons column rest ih =>
      rw [List.map_cons, insertBeforeFirst, insertBeforeFirst, contains_map injective, ih]
      split <;> rfl

/-- The right edge has the same place among renamed columns. -/
theorem insertBehindLast_map {function : Column → Column} (injective : Function.Injective function)
    (used : List Column) (edge : Column) (columns : List Column) :
    insertBehindLast (used.map function) (function edge) (columns.map function) =
      (insertBehindLast used edge columns).map function := by
  rw [insertBehindLast, ← List.map_reverse, insertBeforeFirst_map injective, ← List.map_reverse,
    insertBehindLast]

/-- The edges of a block stand around the same columns under other names. -/
theorem enclose_renamed (block : Nat) (used : List Column) :
    (roster.renamed naming).enclose block (used.map (Column.renamed naming)) =
      (roster.enclose block used).renamed naming := by
  have injective := Column.renamed_injective naming
  have some : (roster.renamed naming).inner.any (used.map (Column.renamed naming)).contains =
      roster.inner.any used.contains := by
    simp only [renamed, List.any_map, Function.comp_def, contains_map injective]
  have left := insertBeforeFirst_map injective used (.edge block .left) roster.inner
  have right := insertBehindLast_map injective used (.edge block .right)
    (insertBeforeFirst used (.edge block .left) roster.inner)
  simp only [Column.renamed] at left right
  simp only [enclose, some]
  split
  · simp only [renamed, left, right]
  · simp [renamed, Column.renamed]

end Roster

namespace Change

variable (naming : Renaming)

theorem stage_renamed (change : Change) (names : List String) (mode : Terminator) :
    (change.stage names mode).renamed naming = change.stage (names.map naming.apply) mode := by
  cases change <;> rfl

theorem names?_renamed (change : Change) (mode : Terminator) (stage : Stage) :
    change.names? mode (stage.renamed naming) =
      (change.names? mode stage).map (List.map naming.apply) := by
  cases stage with
  | enter names last =>
      rw [Stage.renamed, names?, names?]
      split <;> rfl
  | leave names last =>
      rw [Stage.renamed, names?, names?]
      split <;> rfl
  | _ => rfl

end Change

namespace Draft

variable (naming : Renaming)

def renamed (draft : Draft) : Draft where
  recent := draft.recent.map (Stage.renamed naming)
  used := draft.used.map (Column.renamed naming)
  live := draft.live

variable (draft : Draft)

theorem stages_renamed :
    (draft.renamed naming).stages = Stage.renamedAll naming draft.stages := by
  rw [stages, stages, Stage.renamedAll_eq_map, List.map_reverse]
  rfl

theorem push_renamed (stage : Stage) :
    (draft.renamed naming).push (stage.renamed naming) =
      (draft.push stage).renamed naming := by
  simp [push, renamed, Stage.isDrawn_renamed]

theorem use_renamed (columns : List Column) :
    (draft.renamed naming).use (columns.map (Column.renamed naming)) =
      (draft.use columns).renamed naming := by
  simp only [use, renamed, List.filter_map, List.map_append]
  congr 3
  apply List.filter_congr
  intro column _
  cases column <;> rfl

/-- New names are merged as the old ones are. -/
theorem merge_renamed (listed names : List String) :
    merge (listed.map naming.apply) (names.map naming.apply) =
      (merge listed names).map naming.apply := by
  induction names generalizing listed with
  | nil => rfl
  | cons name rest ih =>
      rw [merge, merge, List.map_cons, List.foldl_cons, List.foldl_cons,
        contains_map naming.injective, ← merge, ← merge]
      split
      · exact ih listed
      · rw [← ih, List.map_append, List.map_singleton]

theorem change_renamed (change : Change) (names : List String) (mode : Terminator) :
    (draft.renamed naming).change change (names.map naming.apply) mode =
      (draft.change change names mode).renamed naming := by
  have pushed := draft.push_renamed naming (change.stage names mode)
  rw [Change.stage_renamed] at pushed
  cases recent : draft.recent with
  | nil => simpa only [Draft.change, renamed, recent, List.map_nil] using pushed
  | cons newest older =>
      have newestToo := Change.names?_renamed naming change mode newest
      cases found : change.names? mode newest with
      | none =>
          rw [found, Option.map_none] at newestToo
          simpa only [Draft.change, renamed, recent, List.map_cons, newestToo, found] using pushed
      | some earlier =>
          rw [found, Option.map_some] at newestToo
          simp [Draft.change, renamed, recent, newestToo, found, merge_renamed,
            Change.stage_renamed]

end Draft

def Frame.renamed (naming : Renaming) (frame : Frame) : Frame :=
  { frame with
    closed := Stage.renamedSections naming frame.closed
    outer := frame.outer.renamed naming }

theorem Frame.sections_renamed (naming : Renaming) (frame : Frame) (stages : List Stage) :
    (frame.renamed naming).sections (Stage.renamedAll naming stages) =
      Stage.renamedSections naming (frame.sections stages) := by
  rw [Frame.sections, Frame.sections, Stage.renamedSections_append]
  rfl

namespace Assembly

variable (naming : Renaming)

def renamed (assembly : Assembly) : Assembly :=
  { assembly with
    roster := assembly.roster.renamed naming
    draft := assembly.draft.renamed naming
    frames := assembly.frames.map (Frame.renamed naming) }

variable (assembly : Assembly)

theorem frames_renamed :
    (assembly.renamed naming).frames = assembly.frames.map (Frame.renamed naming) := rfl

theorem register_renamed (names : List String) :
    (assembly.renamed naming).register (names.map naming.apply) =
      (assembly.register names).renamed naming := by
  simp only [register, renamed, Roster.registerAll_renamed]

theorem place_renamed (stage : Stage) :
    (assembly.renamed naming).place (stage.renamed naming) =
      (assembly.place stage).renamed naming := by
  simp only [place, renamed, Draft.push_renamed]

theorem use_renamed (names : List String) :
    (assembly.renamed naming).use (names.map naming.apply) =
      (assembly.use names).renamed naming := by
  simp only [use, renamed, Column.map_named_apply, Draft.use_renamed]

theorem change_renamed (change : Change) (names : List String) (mode : Terminator) :
    (assembly.renamed naming).change change (names.map naming.apply) mode =
      (assembly.change change names mode).renamed naming := by
  have able : (assembly.renamed naming).roster.changeable change (names.map naming.apply) =
      (assembly.roster.changeable change names).map naming.apply :=
    assembly.roster.changeable_renamed naming change names
  rcases assembly.change_cases change names mode with ⟨none, same⟩ | ⟨some, changed⟩
  · rw [none, List.map_nil] at able
    rw [same, Assembly.change, able]
  · rcases (assembly.renamed naming).change_cases change (names.map naming.apply) mode with
      ⟨none, _⟩ | ⟨_, changedToo⟩
    · exact absurd (List.map_eq_nil_iff.mp (able.symm.trans none)) some
    · rw [changed, changedToo, able]
      simp only [renamed, Roster.change_renamed, Column.map_named_apply, Draft.use_renamed,
        Draft.change_renamed]

theorem speak_renamed (names : List String) (stage : Stage) :
    (assembly.renamed naming).speak (names.map naming.apply) (stage.renamed naming) =
      (assembly.speak names stage).renamed naming := by
  rw [speak, register_renamed, change_renamed, use_renamed, place_renamed, speak]

/-- A declaration fails for the same cause, since the brackets keep their names. -/
theorem declare_renamed (origin : Origin) (command : Command) (names : List String) :
    (assembly.renamed naming).declare origin command (names.map naming.apply) =
      (assembly.declare origin command names).map (renamed naming) := by
  have same : Column.isReserved ∘ naming.apply = Column.isReserved :=
    funext (Column.isReserved_apply naming)
  rw [declare, declare, List.find?_map, same]
  cases found : names.find? Column.isReserved with
  | none => exact congrArg Except.ok (assembly.register_renamed naming names)
  | some name =>
      rw [Option.map_some, Column.apply_of_isReserved naming (List.find?_some found)]
      rfl

theorem message_renamed (sender receiver : Mention) (arrow : Arrow) (label : String) :
    (assembly.renamed naming).message (sender.renamed naming) (receiver.renamed naming) arrow
        label =
      (assembly.message sender receiver arrow label).renamed naming := by
  have departing : ([sender.renamed naming, receiver.renamed naming].filter fun mention =>
        mention.flag == some .depart).map Mention.name =
      (([sender, receiver].filter fun mention => mention.flag == some .depart).map
        Mention.name).map naming.apply := by
    have both : [sender.renamed naming, receiver.renamed naming] =
        [sender, receiver].map (Mention.renamed naming) := rfl
    rw [both, List.filter_map, List.map_map, List.map_map]
    rfl
  have spoken := assembly.speak_renamed naming [sender.name, receiver.name]
    (.message sender.name receiver.name arrow label)
  rw [message, departing, message, ← change_renamed, ← spoken]
  rfl

/-- The outer columns, which place a note that mentions nobody, are not renamed. -/
theorem note_renamed (position : NotePosition) (style : NoteStyle) (mentions : List Mention)
    (label : String) :
    (assembly.renamed naming).note position style (mentions.map (Mention.renamed naming)) label =
      (assembly.note position style mentions label).renamed naming := by
  have outer : position.outerNames.map naming.apply = position.outerNames := by
    cases position <;> simp [NotePosition.outerNames, naming.outer]
  have named : (if (mentions.map (Mention.renamed naming)).isEmpty then position.outerNames
        else (mentions.map (Mention.renamed naming)).map Mention.name) =
      (if mentions.isEmpty then position.outerNames
        else mentions.map Mention.name).map naming.apply := by
    cases mentions with
    | nil => exact outer.symm
    | cons mention rest => simp [Mention.renamed, Function.comp_def]
  rw [note, named, note, ← speak_renamed]
  rfl

theorem divide_renamed (frame : Frame) (outer : List Frame) (mode : BlockMode) (label : String) :
    (assembly.renamed naming).divide (frame.renamed naming) (outer.map (Frame.renamed naming)) mode
        label =
      (assembly.divide frame outer mode label).renamed naming := by
  have sections := frame.sections_renamed naming assembly.draft.stages
  rw [← Draft.stages_renamed] at sections
  simp only [divide, renamed, sections]
  rfl

theorem keep_renamed (frame : Frame) (outer : List Frame) :
    (assembly.renamed naming).keep (frame.renamed naming) (outer.map (Frame.renamed naming)) =
      (assembly.keep frame outer).renamed naming := by
  have sections := frame.sections_renamed naming assembly.draft.stages
  rw [← Draft.stages_renamed] at sections
  have enclosed := assembly.roster.enclose_renamed naming frame.number assembly.draft.used
  have used := frame.outer.use_renamed naming
    (assembly.draft.used ++ [.edge frame.number .left, .edge frame.number .right])
  have pushed := (frame.outer.use
    (assembly.draft.used ++ [.edge frame.number .left, .edge frame.number .right])).push_renamed
      naming (frame.block assembly.draft.stages)
  rw [← used, List.map_append, Frame.block, Stage.renamed, naming.edge, naming.edge, ← sections]
    at pushed
  simp only [keep, renamed]
  congr 1

theorem drop_renamed (frame : Frame) (outer : List Frame) :
    (assembly.renamed naming).drop (frame.renamed naming) (outer.map (Frame.renamed naming)) =
      (assembly.drop frame outer).renamed naming := rfl

/-- A split does not depend on names. -/
theorem splitBlock_renamed (origin : Origin) (mode : BlockMode) (label : String) :
    (assembly.renamed naming).splitBlock origin mode label =
      (assembly.splitBlock origin mode label).map (renamed naming) := by
  rw [splitBlock, splitBlock, frames_renamed]
  cases assembly.frames with
  | nil => rfl
  | cons frame outer =>
      have sameMode : (frame.renamed naming).mode = frame.mode := rfl
      simp only [List.map_cons, sameMode]
      split
      · exact congrArg Except.ok (assembly.divide_renamed naming frame outer mode label)
      · rfl

theorem closeBlock_renamed (origin : Origin) :
    (assembly.renamed naming).closeBlock origin =
      (assembly.closeBlock origin).map (renamed naming) := by
  rw [closeBlock, closeBlock, frames_renamed]
  cases assembly.frames with
  | nil => rfl
  | cons frame outer =>
      have sameLive : (assembly.renamed naming).draft.live = assembly.draft.live := rfl
      simp only [List.map_cons, sameLive]
      refine congrArg Except.ok ?_
      split
      · exact assembly.keep_renamed naming frame outer
      · exact assembly.drop_renamed naming frame outer

/-- The marks are not renamed, and so a jump finds the same ones. -/
theorem jump_renamed (origin : Origin) (target : String) :
    (assembly.renamed naming).jump origin target =
      (assembly.jump origin target).map (renamed naming) := by
  have sameMarkers : (assembly.renamed naming).markers = assembly.markers := rfl
  rw [jump, jump, sameMarkers]
  split
  · exact congrArg Except.ok (assembly.place_renamed naming (.jump target))
  · rfl

theorem mark_renamed (name : String) :
    (assembly.renamed naming).mark name = (assembly.mark name).renamed naming := by
  have placed := assembly.place_renamed naming (.mark name)
  rw [Stage.renamed] at placed
  rw [mark, placed]
  rfl

/-- A statement does the same to participants of other names, and fails for the same cause. -/
theorem perform_renamed (origin : Origin) (statement : Statement) :
    (assembly.renamed naming).perform origin (statement.renamed naming) =
      (assembly.perform origin statement).map (renamed naming) := by
  have named (mentions : List Mention) : (mentions.map (Mention.renamed naming)).map Mention.name =
      (mentions.map Mention.name).map naming.apply := by
    simp [Mention.renamed, Function.comp_def]
  cases statement with
  | define mentions =>
      rw [Statement.renamed, perform, named, declare_renamed, perform]
  | enter mentions mode =>
      simp only [Statement.renamed, perform, named, declare_renamed]
      cases assembly.declare origin .enter (mentions.map Mention.name) with
      | error fault => rfl
      | ok next => exact congrArg Except.ok (next.change_renamed naming .enter _ mode)
  | leave mentions mode =>
      simp only [Statement.renamed, perform, named, declare_renamed]
      cases assembly.declare origin .leave (mentions.map Mention.name) with
      | error fault => rfl
      | ok next => exact congrArg Except.ok (next.change_renamed naming .leave _ mode)
  | message sender receiver arrow label =>
      exact congrArg Except.ok (assembly.message_renamed naming sender receiver arrow label)
  | note position style mentions label =>
      exact congrArg Except.ok (assembly.note_renamed naming position style mentions label)
  | mark name => exact congrArg Except.ok (assembly.mark_renamed naming name)
  | jump target => exact assembly.jump_renamed naming origin target
  | openBlock mode label => rfl
  | splitBlock mode label => exact assembly.splitBlock_renamed naming origin mode label
  | closeBlock => exact assembly.closeBlock_renamed naming origin

/-- A renamed statement does the same to a renamed assembly. -/
theorem take_renamed (located : Located) :
    (assembly.renamed naming).take (located.renamed naming) =
      (assembly.take located).map (renamed naming) := by
  have performed := assembly.perform_renamed naming ⟨assembly.taken + 1, located.span⟩
    located.statement
  rw [take, take]
  change Except.map _ ((assembly.renamed naming).perform ⟨assembly.taken + 1, located.span⟩
    (located.statement.renamed naming)) = _
  rw [performed]
  cases assembly.perform ⟨assembly.taken + 1, located.span⟩ located.statement <;> rfl

/-- Renamed statements lead to the renamed assembly, or to the same fault. -/
theorem run_renamed (statements : List Located) :
    (assembly.renamed naming).run (statements.map (Located.renamed naming)) =
      (assembly.run statements).map (renamed naming) := by
  induction statements generalizing assembly with
  | nil => rfl
  | cons located rest ih =>
      rw [List.map_cons, run_cons, take_renamed, run_cons]
      cases assembly.take located with
      | error fault => rfl
      | ok next => exact ih next

/-- A renamed assembly is finished as the renamed diagram, or with the same fault. -/
theorem finish_renamed (header : Header) :
    (assembly.renamed naming).finish header =
      (assembly.finish header).map (Diagram.renamed naming) := by
  rw [finish, finish, frames_renamed]
  cases assembly.frames with
  | nil =>
      have ended : (assembly.renamed naming).change .leave
            (assembly.renamed naming).roster.visibleInOrder header.terminators =
          (assembly.change .leave assembly.roster.visibleInOrder header.terminators).renamed
            naming := by
        rw [← change_renamed, ← Roster.visibleInOrder_renamed]
        rfl
      have names (columns : List Column) : (columns.map (Column.renamed naming)).map Column.name =
          (columns.map Column.name).map naming.apply := by
        simp [Function.comp_def, Column.name_renamed]
      simp only [List.map_nil, ended]
      simp only [Except.map, Diagram.renamed, renamed, Roster.columns_renamed, names,
        Draft.stages_renamed]
  | cons frame outer => rfl

end Assembly

/-- If participants get other names, then a document fails for the same cause as before, or its
diagram is the same with their other names. -/
theorem assemble_renamed (naming : Renaming) (document : Document) :
    (document.renamed naming).assemble = document.assemble.map (Diagram.renamed naming) := by
  have ran : Assembly.run {} (document.renamed naming).statements =
      (Assembly.run {} document.statements).map (Assembly.renamed naming) :=
    Assembly.run_renamed naming {} document.statements
  rw [Document.assemble, ran, Document.assemble]
  cases Assembly.run {} document.statements with
  | error fault => rfl
  | ok last => exact last.finish_renamed naming document.header

theorem assemble_renamed_tour :
    ∃ naming : Renaming, naming.apply "A" = "B" ∧ naming.apply "B" = "A" ∧
      (Document.tour.renamed naming).assemble =
        Document.tour.assemble.map (Diagram.renamed naming) := by
  let naming := Renaming.swap "A" "B" (by decide) (by decide)
  exact ⟨naming, Equiv.swap_apply_left "A" "B", Equiv.swap_apply_right "A" "B",
    assemble_renamed naming Document.tour⟩

end Lifeline
