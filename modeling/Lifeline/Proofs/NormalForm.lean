import Lifeline.Proofs.Enclosure
import Lifeline.Proofs.Faithfulness
import Lifeline.Proofs.Mirror

/-! The script of a diagram is a document of the same diagram. -/

namespace Lifeline

namespace Column

/-- An ordinary name is neither that of an outer column nor like that of an edge. -/
def isOrdinary (name : String) : Bool := !isReserved name && !isEdgeName name

end Column

/-- These are the participants of a diagram in the order of their columns. -/
def Diagram.participants (diagram : Diagram) : List String :=
  diagram.columns.filter Column.isOrdinary

/-- The participants are defined in their order before the stages are written. -/
def Diagram.script (diagram : Diagram) : List Statement :=
  .define (diagram.participants.map Mention.plain) :: Stage.scriptAll diagram.stages

/-- A block is populated if something inside of it is about a participant. -/
def Stage.isPopulated : Stage → Bool
  | .block _ _ sections =>
      (walkSections sections).any fun stage => stage.about.any Column.isOrdinary
  | _ => true

def Statement.isOpening : Statement → Bool
  | .openBlock _ _ => true
  | _ => false

/-- Every block that the document opens is in the diagram. -/
def Diagram.HasBlocks (diagram : Diagram) (document : Document) : Prop :=
  (Stage.walkAll diagram.stages).countP Stage.isBlock =
    document.statements.countP fun located => located.statement.isOpening

/-- What is walked at a level is walked with all levels. -/
theorem Level.walk_subset_walkAll {levels : List Level} {level : Level} (member : level ∈ levels) :
    level.walk ⊆ Level.walkAll levels := by
  induction levels with
  | nil => exact absurd member List.not_mem_nil
  | cons first rest ih =>
      rw [walkAll]
      rcases List.mem_cons.mp member with rfl | member
      · exact List.subset_append_right _ _
      · exact List.Subset.trans (ih member) (List.subset_append_left _ _)

namespace Assembly

variable {assembly next : Assembly}

/-- So many blocks are open or have been kept. -/
def placed (assembly : Assembly) : Nat := assembly.frames.length + assembly.kept.length

/-- A block that is opened is placed, and it may be dropped later. -/
theorem placed_of_move (before after : Assembly) (move : Move before after) (quiet : before.Quiet) :
    before.blocks + after.placed ≤ after.blocks + before.placed := by
  rcases kept_of_move before after move quiet with same | ⟨frame, outer, inside, rfl, perm⟩
  · rw [placed, placed, same]
    cases move with
    | change change names mode known => simp
    | openBlock origin mode label =>
        simp only [openBlock, List.length_cons]
        omega
    | divide frame outer mode label inside => simp [divide, inside]
    | keep frame outer inside live => simp [keep, inside]
    | drop frame outer inside dead => simp [drop, inside]
    | _ => exact Nat.le_refl _
  · -- The block is counted among those that have been kept, and no longer among the open ones.
    have more := perm.length_eq
    rw [List.length_cons] at more
    rw [placed, placed, more, inside]
    simp only [keep, List.length_cons]
    omega

/-- No more blocks are placed than are opened. -/
theorem placed_of_moves (quiet : assembly.Quiet) (moves : Moves assembly next) :
    assembly.blocks + next.placed ≤ next.blocks + assembly.placed := by
  have holds : next.Quiet ∧ assembly.blocks + next.placed ≤ next.blocks + assembly.placed := by
    apply moves.keeps
    · rintro before after move ⟨still, least⟩
      have step := placed_of_move before after move still
      exact ⟨quiet_of_move before after move still, by omega⟩
    · exact ⟨quiet, Nat.le_refl _⟩
  exact holds.2

/-- An assembly is whole if no block has been dropped, and all that have been kept are populated. -/
structure Whole (assembly : Assembly) : Prop where
  complete : assembly.blocks ≤ assembly.placed
  populated : ∀ stage ∈ assembly.kept, stage.isPopulated = true

/-- Whatever leads to a whole assembly is whole. -/
theorem Whole.of_moves (moves : Moves {} assembly) (later : Moves assembly next)
    (whole : next.Whole) : assembly.Whole where
  complete := by
    have most := placed_of_moves (quiet_of_moves moves) later
    have complete := whole.complete
    omega
  populated := fun stage member =>
    whole.populated stage (mem_kept_of_moves (quiet_of_moves moves) later member)

/-- No block is dropped on the way to a whole assembly. -/
theorem Whole.not_drop {frame : Frame} {outer : List Frame} (moves : Moves {} assembly)
    (inside : assembly.frames = frame :: outer) (dead : assembly.draft.live = false) :
    ¬(assembly.drop frame outer).Whole := by
  intro whole
  have start : Quiet {} := quiet_of_moves .refl
  have most : 0 + assembly.placed ≤ assembly.blocks + 0 := placed_of_moves start moves
  have fewer : (assembly.drop frame outer).placed + 1 = assembly.placed := by
    rw [placed, placed, kept_drop (quiet_of_moves moves) inside dead, inside, List.length_cons]
    simp only [drop]
    omega
  have complete : assembly.blocks ≤ (assembly.drop frame outer).placed := whole.complete
  omega

/-- Something is used in a block that is populated. -/
theorem used_ne_nil_of_populated {frame : Frame} (accounted : assembly.Accounted)
    {outer : List Frame} (inside : assembly.frames = frame :: outer)
    (populated : (frame.block assembly.draft.stages).isPopulated = true) :
    assembly.draft.used ≠ [] := by
  rw [Frame.block, Stage.isPopulated, walkSections_sections, List.any_eq_true] at populated
  obtain ⟨stage, within, about⟩ := populated
  obtain ⟨name, member, ordinary⟩ := List.any_eq_true.mp about
  rw [Column.isOrdinary, Bool.and_eq_true, Bool.not_eq_true'] at ordinary
  have used : Column.participant name ∈ assembly.draft.used :=
    (forall_levels_inside accounted inside _).mpr ⟨stage, within, member, ordinary.1⟩
  exact List.ne_nil_of_mem used

/-- Whatever has been used at a level has a column. -/
theorem mem_inner_of_level {level : Level} (sound : assembly.Sound) (accounted : assembly.Accounted)
    (member : level ∈ assembly.levels) :
    ∀ column ∈ level.draft.used, column ∈ assembly.roster.inner := by
  intro column used
  obtain ⟨stage, walked, needs⟩ := (accounted level member column).mp used
  exact sound.mem_inner_of_needs (Level.walk_subset_walkAll member walked) needs

/-- Whatever is used in an open block has a column. -/
theorem mem_inner_of_used {frame : Frame} {outer : List Frame} (sound : assembly.Sound)
    (accounted : assembly.Accounted) (inside : assembly.frames = frame :: outer) :
    ∀ column ∈ assembly.draft.used, column ∈ assembly.roster.inner := by
  have innermost : ⟨frame.closed, assembly.draft⟩ ∈ assembly.levels := by
    rw [levels_inside inside]
    exact List.mem_cons_self
  exact mem_inner_of_level sound accounted innermost

theorem Mirrored.record (mirrored : assembly.Mirrored) (taken : Nat) :
    Mirrored { assembly with taken := taken } := by
  intro later distinct free
  exact (mirrored later distinct free).imp fun mirror mirrors =>
    ⟨mirrors.inner, mirrors.visible, mirrors.markers, mirrors.draft, mirrors.frames, mirrors.blocks⟩

/-- Everything that a statement does is mirrored by what is added to the script. -/
theorem mirrored_perform {origin : Origin} {statement : Statement} (moves : Moves {} assembly)
    (mirrored : assembly.Mirrored) (performed : assembly.perform origin statement = .ok next)
    (whole : next.Whole) : next.Mirrored := by
  have replayed := replayed_of_moves moves
  cases statement with
  | define mentions =>
      obtain ⟨_, rfl⟩ := declare_eq_ok performed
      exact mirrored.register _
  | enter mentions mode =>
      obtain ⟨middle, declared, rfl⟩ := except_map_eq_ok.mp performed
      obtain ⟨_, rfl⟩ := declare_eq_ok declared
      refine (mirrored.register _).change (replayed.register _) mode ?_
      exact fun name member =>
        assembly.known_of_register _ name (Roster.mem_changeable.mp member).1
  | leave mentions mode =>
      obtain ⟨middle, declared, rfl⟩ := except_map_eq_ok.mp performed
      obtain ⟨_, rfl⟩ := declare_eq_ok declared
      have known := known_of_moves (moves.tail (.register assembly (mentions.map Mention.name)))
      exact (mirrored.register _).change (replayed.register _) mode (known.leaving _)
  | message sender receiver arrow label =>
      obtain rfl := Except.ok.inj performed
      let stage : Stage := .message sender.name receiver.name arrow label
      have spoken := moves.trans (assembly.moves_speak stage rfl)
      have sent : (assembly.speak stage.about stage).Mirrored :=
        mirrored.speak replayed rfl (List.cons_ne_nil _ _)
      exact sent.change (replayed_of_moves spoken) .cross ((known_of_moves spoken).leaving _)
  | note position style mentions label =>
      obtain rfl := Except.ok.inj performed
      refine @Mirrored.speak assembly mirrored replayed (.note position style _ label) rfl ?_
      cases mentions with
      | nil => cases position <;> exact List.cons_ne_nil _ _
      | cons mention rest => exact List.cons_ne_nil _ _
  | mark name =>
      obtain rfl := Except.ok.inj performed
      exact mirrored.mark name
  | jump target => exact mirrored.jump performed
  | openBlock mode label =>
      obtain rfl := Except.ok.inj performed
      exact mirrored.openBlock origin mode label
  | splitBlock mode label => exact mirrored.splitBlock performed
  | closeBlock =>
      have accounted := accounted_of_moves moves
      obtain ⟨frame, outer, inside, ⟨live, rfl⟩ | ⟨dead, rfl⟩⟩ := closeBlock_eq_ok performed
      · have block : frame.block assembly.draft.stages ∈ (assembly.keep frame outer).kept := by
          rw [kept, written_keep, List.mem_filter]
          exact ⟨List.mem_append_right _ List.mem_cons_self, rfl⟩
        refine mirrored.keep inside live ?_ ?_
        · exact mem_inner_of_used (sound_of_moves moves) accounted inside
        · exact used_ne_nil_of_populated accounted inside (whole.populated _ block)
      · exact absurd whole (Whole.not_drop moves inside dead)

/-- A run that ends in a whole assembly is mirrored from its start to its end. -/
theorem mirrored_run {statements : List Located} (moves : Moves {} assembly)
    (mirrored : assembly.Mirrored) (ran : assembly.run statements = .ok next)
    (whole : next.Whole) : next.Mirrored := by
  induction statements generalizing assembly with
  | nil =>
      obtain rfl := Except.ok.inj ran
      exact mirrored
  | cons located rest ih =>
      rw [run_cons] at ran
      obtain ⟨middle, taken, ran⟩ := except_bind_eq_ok.mp ran
      -- No block is lost later on, and so none is lost in this step.
      have reached := moves.trans (moves_take taken)
      have wholeMiddle := whole.of_moves reached (moves_run ran)
      obtain ⟨performed, accepted, rfl⟩ := except_map_eq_ok.mp taken
      have once := mirrored_perform moves mirrored accepted
        ⟨wholeMiddle.complete, wholeMiddle.populated⟩
      exact ih reached (once.record _) ran

/-- Blocks are numbered in the order of the statements that open them. -/
theorem blocks_perform {origin : Origin} {statement : Statement}
    (performed : assembly.perform origin statement = .ok next) :
    next.blocks = assembly.blocks + if statement.isOpening then 1 else 0 := by
  cases statement with
  | openBlock mode label =>
      obtain rfl := Except.ok.inj performed
      rfl
  | splitBlock mode label =>
      obtain ⟨frame, outer, _, rfl⟩ := splitBlock_eq_ok performed
      rfl
  | closeBlock =>
      obtain ⟨frame, outer, _, ⟨_, rfl⟩ | ⟨_, rfl⟩⟩ := closeBlock_eq_ok performed
      · rfl
      · rfl
  | _ => exact (grows_perform performed rfl).2.blocks

/-- A run counts the blocks that its statements open. -/
theorem blocks_run {statements : List Located} (ran : assembly.run statements = .ok next) :
    next.blocks =
      assembly.blocks + statements.countP fun located => located.statement.isOpening := by
  induction statements generalizing assembly with
  | nil =>
      obtain rfl := Except.ok.inj ran
      rfl
  | cons located rest ih =>
      rw [run_cons] at ran
      obtain ⟨middle, taken, ran⟩ := except_bind_eq_ok.mp ran
      obtain ⟨performed, accepted, rfl⟩ := except_map_eq_ok.mp taken
      rw [ih ran, List.countP_cons, blocks_perform accepted]
      omega

/-- Nobody is left to end where nobody is visible, and so a mirror makes the same diagram. -/
theorem Mirrors.finish {mirror original : Assembly} (mirrors : mirror.Mirrors original [])
    (closed : original.frames = []) (nobody : original.roster.shown = ∅) (header : Header) :
    mirror.finish header = .ok
      ⟨header, original.roster.columns.map Column.name, original.draft.stages⟩ := by
  have closedToo : mirror.frames = [] := by
    have frames := mirrors.frames
    rw [closed] at frames
    exact List.map_eq_nil_iff.mp frames
  have hidden : mirror.roster.visible = [] := by
    rw [mirrors.visible]
    exact List.toFinset_eq_empty_iff _ |>.mp nobody
  have none : mirror.roster.visibleInOrder = [] := by
    rw [Roster.visibleInOrder_eq_filter, hidden, List.filter_eq_nil_iff]
    simp
  have same : mirror.roster.columns = original.roster.columns := by
    rw [Roster.columns, mirrors.inner, List.map_nil, List.append_nil, Roster.columns]
  rw [Assembly.finish, closedToo, none, ← same, ← mirrors.draft]
  rfl

end Assembly

/-- The ordinary names among the columns are those of the participants. -/
theorem Roster.Proper.filter_isOrdinary {roster : Roster} (proper : roster.Proper)
    (plain : ∀ name ∈ roster.participants, Column.isEdgeName name = false) :
    (roster.columns.map Column.name).filter Column.isOrdinary = roster.participants := by
  have inner := (Column.filter_names proper.framed plain).1
  have free : roster.participants.filter (fun name => !Column.isReserved name) =
      roster.participants := by
    rw [List.filter_eq_self]
    intro name member
    simp [proper.free name member]
  have split (names : List String) : names.filter Column.isOrdinary =
      (names.filter fun name => !Column.isEdgeName name).filter fun name =>
        !Column.isReserved name := by
    rw [List.filter_filter]
    rfl
  rw [roster.map_name_columns, List.filter_append, List.filter_cons_of_neg (by decide), split,
    inner, ← Roster.participants, free]
  exact List.append_nil _

namespace Assembly

variable {last : Assembly} {document : Document}

/-- The diagram of a document tells whether everything that led to it was whole. -/
theorem whole_ended (ran : Assembly.run {} document.statements = .ok last)
    (closed : last.frames = []) {diagram : Diagram}
    (stages : diagram.stages = (last.ended document.header).draft.stages)
    (complete : diagram.HasBlocks document)
    (populated : ∀ stage ∈ Stage.walkAll diagram.stages, stage.isPopulated = true) :
    (last.ended document.header).Whole := by
  have outermost : (last.ended document.header).frames = [] :=
    (last.frames_change _ _ _).trans closed
  have kept : (last.ended document.header).kept =
      (Stage.walkAll diagram.stages).filter Stage.isBlock := by
    rw [Assembly.kept, written_of_frames_eq_nil outermost, stages]
  constructor
  · have blocks : (last.ended document.header).blocks =
        0 + document.statements.countP fun located => located.statement.isOpening :=
      (last.blocks_change _ _ _).trans (blocks_run ran)
    rw [blocks, ← complete, placed, outermost, kept, ← List.countP_eq_length_filter]
    exact Nat.le_refl _
  · intro stage member
    rw [kept] at member
    exact populated stage (List.mem_filter.mp member).1

/-- The last change of all is written in the script as well. -/
theorem mirrored_ended (ran : Assembly.run {} document.statements = .ok last)
    (whole : (last.ended document.header).Whole) : (last.ended document.header).Mirrored := by
  have moves := moves_run ran
  have wholeLast := whole.of_moves moves (.single (.change last .leave _ _ (by simp)))
  have mirrored := mirrored_run .refl mirrored_start ran wholeLast
  exact mirrored.change (replayed_of_moves moves) _ ((known_of_moves moves).leaving _)

end Assembly

/-- If the diagram of a document has all its blocks, a participant takes part in each of them, and
no participant is named like an edge, then the script of the diagram makes the same diagram again.
-/
theorem assemble_script {document again : Document} {diagram : Diagram}
    (assembled : document.assemble = .ok diagram)
    (plain : ∀ name ∈ document.mentioned, Column.isEdgeName name = false)
    (complete : diagram.HasBlocks document)
    (populated : ∀ stage ∈ Stage.walkAll diagram.stages, stage.isPopulated = true)
    (header : again.header = document.header)
    (script : again.statements.map Located.statement = diagram.script) :
    again.assemble = .ok diagram := by
  obtain ⟨last, ran, closed, rfl⟩ := Assembly.assemble_eq_ok assembled
  let final := last.ended document.header
  have moves := Assembly.moves_run ran
  have outermost : final.frames = [] := (last.frames_change _ _ _).trans closed
  have lists : final.Lists document.mentioned :=
    (Assembly.lists_document ran).congr (Assembly.inner_change _ _ _ _)
  have proper : final.roster.Proper :=
    (Assembly.sound_of_moves (moves.tail (.change last .leave _ _ (by simp)))).proper lists
  have mirrored : final.Mirrored :=
    Assembly.mirrored_ended ran (Assembly.whole_ended ran closed rfl complete populated)
  have ordinary : ∀ name ∈ final.roster.participants, Column.isEdgeName name = false := by
    intro name member
    rw [lists] at member
    exact plain name (Column.mem_listed.mp member).1
  have distinct : (final.roster.participants ++ []).Nodup := by
    rw [List.append_nil, lists]
    exact nodup_eraseDups _
  have full : final.fullScript [] = again.statements.map Located.statement := by
    rw [script, Assembly.fullScript, List.append_nil, Assembly.script, outermost, Draft.script,
      Diagram.script, Diagram.participants]
    exact congrArg (fun names => Statement.define (names.map Mention.plain) :: _)
      (proper.filter_isOrdinary ordinary).symm
  have leads := mirrored [] distinct (by simp)
  rw [full] at leads
  obtain ⟨mirror, ranAgain, mirrors⟩ := leads.run
  rw [Document.assemble, ranAgain, header]
  exact mirrors.finish outermost (Assembly.shown_ended (Assembly.known_of_moves moves) _) _

/-- In this document a block is nested in the first section of another one. -/
def Document.errand : Document where
  header := { terminators := .bar }
  statements :=
    [ ⟨.message { name := "A" } { name := "B" } .plain "call", .origin⟩,
      ⟨.openBlock .alternative "free", .origin⟩,
      ⟨.enter [{ name := "C" }, { name := "A" }] .bar, .origin⟩,
      ⟨.enter [{ name := "D" }] .bar, .origin⟩,
      ⟨.openBlock .loop "", .origin⟩,
      ⟨.message { name := "C", flag := some .depart } { name := "A" } .plain "", .origin⟩,
      ⟨.closeBlock, .origin⟩,
      ⟨.splitBlock .otherwise "busy", .origin⟩,
      ⟨.mark "later", .origin⟩,
      ⟨.note .over .note [] "wait", .origin⟩,
      ⟨.closeBlock, .origin⟩,
      ⟨.jump "later", .origin⟩ ]

theorem assemble_script_errand :
    ∃ (diagram : Diagram) (again : Document), Document.errand.assemble = .ok diagram ∧
      (∀ name ∈ Document.errand.mentioned, Column.isEdgeName name = false) ∧
      diagram.HasBlocks Document.errand ∧
      (∀ stage ∈ Stage.walkAll diagram.stages, stage.isPopulated = true) ∧
      again.header = Document.errand.header ∧
      again.statements.map Located.statement = diagram.script ∧
      again.assemble = .ok diagram := by
  have plain : ∀ name ∈ Document.errand.mentioned, Column.isEdgeName name = false := by decide
  have checked : ∃ diagram, Document.errand.assemble = .ok diagram ∧
      diagram.HasBlocks Document.errand ∧
      (Stage.walkAll diagram.stages).all Stage.isPopulated = true := ⟨_, rfl, rfl, rfl⟩
  obtain ⟨diagram, assembled, complete, all⟩ := checked
  have populated := List.all_eq_true.mp all
  let again : Document :=
    ⟨Document.errand.header, diagram.script.map fun statement => ⟨statement, .origin⟩⟩
  have script : again.statements.map Located.statement = diagram.script := by
    simp [again, Function.comp_def]
  exact ⟨diagram, again, assembled, plain, complete, populated, rfl, script,
    assemble_script assembled plain complete populated rfl script⟩

end Lifeline
