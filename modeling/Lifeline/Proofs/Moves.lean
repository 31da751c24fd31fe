import Mathlib.Logic.Relation
import Lifeline.Assembly
import Lifeline.Proofs.Visibility
import Lifeline.Proofs.Walk

/-! Every statement is carried out by a few moves. -/

namespace Lifeline

/-- A mapped result succeeds with what is made of a success underneath. -/
theorem except_map_eq_ok {Reason A B : Type} {function : A → B} {result : Except Reason A}
    {value : B} : result.map function = .ok value ↔ ∃ source, result = .ok source ∧
      function source = value := by
  cases result <;> simp [Except.map]

/-- Two steps in a row succeed exactly if both do. -/
theorem except_bind_eq_ok {Reason A B : Type} {function : A → Except Reason B}
    {result : Except Reason A} {value : B} : result.bind function = .ok value ↔
      ∃ source, result = .ok source ∧ function source = .ok value := by
  cases result <;> simp [Except.bind]

/-- A level holds what is drafted at one depth: the closed sections of the block there, and the
draft of its open section. -/
structure Level where
  closed : List (Section Stage)
  draft : Draft

namespace Level

/-- A level is walked through its closed sections first. -/
def walk (level : Level) : List Stage :=
  Stage.walkSections level.closed ++ Stage.walkAll level.draft.stages

/-- The innermost level comes first, and the last one belongs to no block. -/
def around (draft : Draft) : List Frame → List Level
  | [] => [⟨[], draft⟩]
  | frame :: outer => ⟨frame.closed, draft⟩ :: around frame.outer outer

/-- A stage that is pushed is walked last. -/
theorem walk_push (closed : List (Section Stage)) (draft : Draft) (stage : Stage) :
    walk ⟨closed, draft.push stage⟩ = walk ⟨closed, draft⟩ ++ stage.walk := by
  rw [walk, walk, Draft.stages_push, Stage.walkAll_append, Stage.walkAll_singleton,
    List.append_assoc]

/-- What is drafted further out comes earlier in the document. -/
def walkAll : List Level → List Stage
  | [] => []
  | level :: outer => walkAll outer ++ level.walk

end Level

/-- This is the stage that a block becomes when it is kept. -/
def Frame.block (frame : Frame) (stages : List Stage) : Stage :=
  .block (Column.edge frame.number .left).name (Column.edge frame.number .right).name
    (frame.sections stages)

namespace Assembly

/-- The innermost level of an assembly comes first. -/
def levels (assembly : Assembly) : List Level := Level.around assembly.draft assembly.frames

/-- These stages have been written so far, in document order. -/
def written (assembly : Assembly) : List Stage := Level.walkAll assembly.levels

/-- These are the closed sections of the innermost block. -/
def closed (assembly : Assembly) : List (Section Stage) :=
  match assembly.frames with
  | [] => []
  | frame :: _ => frame.closed

/-- These are the levels around the innermost one. -/
def enclosing (assembly : Assembly) : List Level :=
  match assembly.frames with
  | [] => []
  | frame :: outer => Level.around frame.outer outer

theorem levels_eq (assembly : Assembly) :
    assembly.levels = ⟨assembly.closed, assembly.draft⟩ :: assembly.enclosing := by
  unfold levels closed enclosing
  cases assembly.frames <;> rfl

/-- The open frames decide what is written in front of the draft. -/
def front (assembly : Assembly) : List Stage :=
  Level.walkAll assembly.enclosing ++ Stage.walkSections assembly.closed

/-- What has been written is what stands in front of the innermost draft and the draft itself. -/
theorem written_eq (assembly : Assembly) :
    assembly.written = assembly.front ++ Stage.walkAll assembly.draft.stages := by
  rw [written, levels_eq, Level.walkAll, Level.walk, front, List.append_assoc]

variable {assembly next : Assembly}

theorem front_of_frames (same : next.frames = assembly.frames) : next.front = assembly.front := by
  rw [front, front, closed, closed, enclosing, enclosing, same]

/-- What has been written depends on the open blocks and on the stages of the draft only. -/
theorem written_congr (sameFrames : next.frames = assembly.frames)
    (sameStages : next.draft.stages = assembly.draft.stages) :
    next.written = assembly.written := by
  rw [written_eq, written_eq, front_of_frames sameFrames, sameStages]

theorem written_use (assembly : Assembly) (names : List String) :
    (assembly.use names).written = assembly.written :=
  written_congr rfl (Draft.stages_use assembly.draft _)

theorem levels_of_frames (same : next.frames = assembly.frames) :
    next.levels = ⟨assembly.closed, next.draft⟩ :: assembly.enclosing := by
  rw [levels_eq, closed, closed, enclosing, enclosing, same]

/-- A change leaves an assembly alone unless somebody can undergo it. -/
theorem change_cases (assembly : Assembly) (change : Change) (names : List String)
    (mode : Terminator) :
    (assembly.roster.changeable change names = [] ∧
        assembly.change change names mode = assembly) ∨
      (assembly.roster.changeable change names ≠ [] ∧
        assembly.change change names mode =
          { assembly with
            roster := assembly.roster.change (assembly.roster.changeable change names) change
            draft := (assembly.draft.use
              ((assembly.roster.changeable change names).map Column.named)).change change
                (assembly.roster.changeable change names) mode }) := by
  unfold Assembly.change
  cases assembly.roster.changeable change names with
  | nil => exact Or.inl ⟨rfl, rfl⟩
  | cons first rest => exact Or.inr ⟨List.cons_ne_nil first rest, rfl⟩

/-- A change depends on a list of names through those only that can undergo it. -/
theorem change_congr (assembly : Assembly) {change : Change} {first second : List String}
    (mode : Terminator) (same : assembly.roster.changeable change first =
      assembly.roster.changeable change second) :
    assembly.change change first mode = assembly.change change second mode := by
  rw [Assembly.change, Assembly.change, same]

/-- The names that cannot undergo a change can be left out. -/
theorem change_changeable (assembly : Assembly) (change : Change) (names : List String)
    (mode : Terminator) :
    assembly.change change (assembly.roster.changeable change names) mode =
      assembly.change change names mode :=
  assembly.change_congr mode (assembly.roster.changeable_changeable change names)

/-- Two changes of one kind in a row are one change. -/
theorem change_change (assembly : Assembly) (change : Change) (first second : List String)
    (mode : Terminator) :
    (assembly.change change first mode).change change second mode =
      assembly.change change (first ++ second) mode := by
  have names := assembly.roster.changeable_append change first second
  rcases assembly.change_cases change first mode with ⟨none, same⟩ | ⟨some, changed⟩
  · have unchanged : assembly.roster.change [] change = assembly.roster := by
      cases change <;> simp [Roster.change]
    rw [none, unchanged, List.nil_append] at names
    rw [same, assembly.change_congr mode names]
  · have roster : (assembly.change change first mode).roster =
        assembly.roster.change (assembly.roster.changeable change first) change := by rw [changed]
    rw [← roster] at names
    rcases (assembly.change change first mode).change_cases change second mode with
      ⟨none, same⟩ | ⟨someToo, changedToo⟩
    · rw [none, List.append_nil] at names
      rw [same, assembly.change_congr mode names]
    · rcases assembly.change_cases change (first ++ second) mode with ⟨none, _⟩ | ⟨_, together⟩
      · rw [names] at none
        exact absurd (List.append_eq_nil_iff.mp none).1 some
      · have fresh : ∀ name ∈ (assembly.change change first mode).roster.changeable change second,
            name ∉ assembly.roster.changeable change first := by
          rw [roster]
          exact fun name => Roster.fresh_changeable
        have drafts := (assembly.draft.use ((assembly.roster.changeable change first).map
          Column.named)).change_change change mode
            (((assembly.change change first mode).roster.changeable change second).map Column.named)
            (Roster.nodup_changeable _ change second) fresh
        rw [Draft.use_append, ← List.map_append] at drafts
        rw [changedToo, together, names, ← drafts, ← Roster.change_append, ← roster]
        simp only [changed]

/-- Only the roster and the draft change. -/
theorem change_eq (assembly : Assembly) (change : Change) (names : List String)
    (mode : Terminator) :
    assembly.change change names mode =
      { assembly with
        roster := (assembly.change change names mode).roster
        draft := (assembly.change change names mode).draft } := by
  rcases assembly.change_cases change names mode with ⟨_, same⟩ | ⟨_, changed⟩
  · rw [same]
  · rw [changed]

@[simp] theorem frames_change (assembly : Assembly) (change : Change) (names : List String)
    (mode : Terminator) : (assembly.change change names mode).frames = assembly.frames := by
  rw [change_eq]

@[simp] theorem markers_change (assembly : Assembly) (change : Change) (names : List String)
    (mode : Terminator) : (assembly.change change names mode).markers = assembly.markers := by
  rw [change_eq]

@[simp] theorem blocks_change (assembly : Assembly) (change : Change) (names : List String)
    (mode : Terminator) : (assembly.change change names mode).blocks = assembly.blocks := by
  rw [change_eq]

@[simp] theorem frames_speak (assembly : Assembly) (names : List String) (stage : Stage) :
    (assembly.speak names stage).frames = assembly.frames :=
  (assembly.register names).frames_change .enter names .box

@[simp] theorem markers_speak (assembly : Assembly) (names : List String) (stage : Stage) :
    (assembly.speak names stage).markers = assembly.markers :=
  (assembly.register names).markers_change .enter names .box

/-- A change of participants moves no column. -/
@[simp] theorem inner_change (assembly : Assembly) (change : Change) (names : List String)
    (mode : Terminator) :
    (assembly.change change names mode).roster.inner = assembly.roster.inner := by
  rcases assembly.change_cases change names mode with ⟨_, same⟩ | ⟨_, changed⟩
  · rw [same]
  · rw [changed, Roster.inner_change]

@[simp] theorem columns_change (assembly : Assembly) (change : Change) (names : List String)
    (mode : Terminator) :
    (assembly.change change names mode).roster.columns = assembly.roster.columns := by
  rw [Roster.columns, Roster.columns, inner_change]

@[simp] theorem participants_change (assembly : Assembly) (change : Change) (names : List String)
    (mode : Terminator) :
    (assembly.change change names mode).roster.participants = assembly.roster.participants := by
  rw [Roster.participants, Roster.participants, inner_change]

/-- A change takes effect on the participants among the names. -/
theorem shown_change (assembly : Assembly) (change : Change) (names : List String)
    (mode : Terminator) :
    (assembly.change change names mode).roster.shown =
      change.apply assembly.roster.shown (Column.participants names) := by
  rcases assembly.change_cases change names mode with ⟨none, same⟩ | ⟨_, changed⟩
  · rw [same, (assembly.roster.changeable_eq_nil_iff change names).mp none]
  · rw [changed, ← Roster.apply_changeable, Roster.shown_change]

/-- A participant that is registered is hidden at first. -/
@[simp] theorem shown_register (assembly : Assembly) (names : List String) :
    (assembly.register names).roster.shown = assembly.roster.shown := by
  rw [Roster.shown, register, Roster.visible_registerAll]
  rfl

@[simp] theorem shown_keep (assembly : Assembly) (frame : Frame) (outer : List Frame) :
    (assembly.keep frame outer).roster.shown = assembly.roster.shown := by
  rw [Roster.shown, keep, Roster.visible_enclose]
  rfl

/-- Participants that begin before a stage is written are visible behind it. -/
theorem shown_speak (assembly : Assembly) (names : List String) (stage : Stage) :
    (assembly.speak names stage).roster.shown =
      assembly.roster.shown ∪ Column.participants names := by
  have begun := (assembly.register names).shown_change .enter names .box
  rw [shown_register] at begun
  exact begun

/-- A change of some participants is written behind all else. -/
theorem written_change (assembly : Assembly) (change : Change) (names : List String)
    (mode : Terminator) :
    (assembly.roster.changeable change names = [] ∧
        assembly.change change names mode = assembly) ∨
      (assembly.roster.changeable change names ≠ [] ∧
        change.Extends (assembly.roster.changeable change names) mode assembly.written
          (assembly.change change names mode).written) := by
  rcases assembly.change_cases change names mode with ⟨none, same⟩ | ⟨some, changed⟩
  · exact Or.inl ⟨none, same⟩
  · right
    refine ⟨some, ?_⟩
    have extended := (assembly.draft.use
      ((assembly.roster.changeable change names).map Column.named)).extends_change change
        (assembly.roster.changeable change names) mode
    rw [Draft.stages_use] at extended
    rw [written_eq, written_eq, front_of_frames (assembly.frames_change change names mode), changed]
    exact extended.walkAll.append_left assembly.front

/-- A stage without a block below it is written behind all else. -/
theorem written_place (assembly : Assembly) {stage : Stage} (leaf : stage.walk = [stage]) :
    (assembly.place stage).written = assembly.written ++ [stage] := by
  have same : (assembly.place stage).front = assembly.front := front_of_frames rfl
  rw [written_eq, written_eq, same, place, Draft.stages_push, Stage.walkAll_append,
    Stage.walkAll_singleton, leaf, List.append_assoc]

theorem levels_openBlock (assembly : Assembly) (origin : Origin) (mode : BlockMode)
    (label : String) :
    (assembly.openBlock origin mode label).levels = ⟨[], {}⟩ :: assembly.levels := rfl

/-- An opened block has written nothing yet. -/
theorem written_openBlock (assembly : Assembly) (origin : Origin) (mode : BlockMode)
    (label : String) :
    (assembly.openBlock origin mode label).written = assembly.written := by
  rw [written, levels_openBlock, Level.walkAll]
  exact List.append_nil _

variable {frame : Frame} {outer : List Frame}

theorem levels_inside (inside : assembly.frames = frame :: outer) :
    assembly.levels = ⟨frame.closed, assembly.draft⟩ :: Level.around frame.outer outer := by
  rw [levels, inside, Level.around]

/-- The sections of a block that closes are walked as its level was. -/
theorem walkSections_sections (frame : Frame) (draft : Draft) :
    Stage.walkSections (frame.sections draft.stages) = Level.walk ⟨frame.closed, draft⟩ := by
  rw [Frame.sections, Stage.walkSections_append, Stage.walkSections_singleton, Level.walk]

/-- A split only closes a section, and so what has been written stays. -/
theorem written_divide (inside : assembly.frames = frame :: outer) (mode : BlockMode)
    (label : String) : (assembly.divide frame outer mode label).written = assembly.written := by
  have divided : (assembly.divide frame outer mode label).levels =
      ⟨frame.sections assembly.draft.stages, { assembly.draft with recent := [] }⟩ ::
        Level.around frame.outer outer := rfl
  rw [written, written, divided, levels_inside inside, Level.walkAll, Level.walkAll, Level.walk,
    walkSections_sections]
  exact congrArg _ (List.append_nil _)

/-- A block is written in two parts, what surrounds it and what is inside of it. -/
theorem written_inside (inside : assembly.frames = frame :: outer) :
    assembly.written =
      (assembly.drop frame outer).written ++ Level.walk ⟨frame.closed, assembly.draft⟩ := by
  rw [written, levels_inside inside, Level.walkAll]
  rfl

/-- The stage of a block comes in front of all that was written inside of the block. -/
theorem walk_block (frame : Frame) (draft : Draft) :
    (frame.block draft.stages).walk =
      frame.block draft.stages :: Level.walk ⟨frame.closed, draft⟩ := by
  rw [← walkSections_sections, Frame.block, Stage.walk]

/-- A block that is kept comes in front of what was drafted inside of it. -/
theorem written_keep (assembly : Assembly) (frame : Frame) (outer : List Frame) :
    (assembly.keep frame outer).written =
      (assembly.drop frame outer).written ++
        frame.block assembly.draft.stages :: Level.walk ⟨frame.closed, assembly.draft⟩ := by
  have same : (assembly.keep frame outer).front = (assembly.drop frame outer).front :=
    front_of_frames rfl
  have grown : (assembly.keep frame outer).draft.stages =
      (assembly.drop frame outer).draft.stages ++ [frame.block assembly.draft.stages] := by
    exact Draft.stages_push _ _
  rw [written_eq, written_eq, same, grown, Stage.walkAll_append, Stage.walkAll_singleton,
    walk_block, List.append_assoc]

/-- A move is one elementary change of an assembly. -/
inductive Move : Assembly → Assembly → Prop where
  | register (assembly : Assembly) (names : List String) : Move assembly (assembly.register names)
  | change (assembly : Assembly) (change : Change) (names : List String) (mode : Terminator)
      (known : change = .enter → ∀ name ∈ names, Column.named name ∈ assembly.roster.columns) :
      Move assembly (assembly.change change names mode)
  | speak (assembly : Assembly) (stage : Stage) (spoken : stage.speaks = true)
      (known : ∀ name ∈ stage.about, Column.named name ∈ assembly.roster.columns)
      (present : Column.participants stage.about ⊆ assembly.roster.shown) :
      Move assembly ((assembly.use stage.about).place stage)
  | steer (assembly : Assembly) (stage : Stage) (quiet : stage.isDrawn = false) :
      Move assembly (assembly.place stage)
  | record (assembly : Assembly) (markers : List String) (taken : Nat) :
      Move assembly { assembly with markers := markers, taken := taken }
  | openBlock (assembly : Assembly) (origin : Origin) (mode : BlockMode) (label : String) :
      Move assembly (assembly.openBlock origin mode label)
  | divide (assembly : Assembly) (frame : Frame) (outer : List Frame) (mode : BlockMode)
      (label : String) (inside : assembly.frames = frame :: outer) :
      Move assembly (assembly.divide frame outer mode label)
  | keep (assembly : Assembly) (frame : Frame) (outer : List Frame)
      (inside : assembly.frames = frame :: outer) (live : assembly.draft.live = true) :
      Move assembly (assembly.keep frame outer)
  | drop (assembly : Assembly) (frame : Frame) (outer : List Frame)
      (inside : assembly.frames = frame :: outer) (quiet : assembly.draft.live = false) :
      Move assembly (assembly.drop frame outer)

/-- These assemblies can be reached by moves. -/
abbrev Moves : Assembly → Assembly → Prop := Relation.ReflTransGen Move

/-- A declaration that succeeds names no outer column and registers its names. -/
theorem declare_eq_ok {origin : Origin} {command : Command} {names : List String}
    (declared : assembly.declare origin command names = .ok next) :
    names.find? Column.isReserved = none ∧ next = assembly.register names := by
  unfold declare at declared
  split at declared
  · contradiction
  · next free => exact ⟨free, (Except.ok.inj declared).symm⟩

/-- Participants that have just been registered can begin. -/
theorem known_of_register (assembly : Assembly) (names : List String) :
    ∀ name ∈ names, Column.named name ∈ (assembly.register names).roster.columns :=
  fun _ member => assembly.roster.named_mem_columns_registerAll member

/-- Whoever is begun has a column afterwards. -/
theorem known_of_begin (assembly : Assembly) (names : List String) :
    ∀ name ∈ names, Column.named name ∈
      ((assembly.register names).change .enter names .box).roster.columns := by
  intro name member
  rw [columns_change]
  exact assembly.known_of_register names name member

/-- Participants that have just begun are visible. -/
theorem present_of_begin (assembly : Assembly) (names : List String) :
    Column.participants names ⊆
      ((assembly.register names).change .enter names .box).roster.shown := by
  rw [shown_change, Change.apply]
  exact Finset.subset_union_right

/-- A stage that speaks of participants takes three moves: they are registered, they begin, and the
stage is written. -/
theorem moves_speak (assembly : Assembly) (stage : Stage) (spoken : stage.speaks = true) :
    Moves assembly (assembly.speak stage.about stage) := by
  have begun : Moves assembly ((assembly.register stage.about).change .enter stage.about .box) :=
    (Relation.ReflTransGen.single (.register assembly stage.about)).tail
      (.change _ .enter stage.about .box fun _ => assembly.known_of_register stage.about)
  exact begun.tail (.speak _ stage spoken (assembly.known_of_begin stage.about)
    (assembly.present_of_begin stage.about))

/-- A block that closes is kept if it is live, and dropped otherwise. -/
theorem closeBlock_eq_ok {origin : Origin} (closed : assembly.closeBlock origin = .ok next) :
    ∃ frame outer, assembly.frames = frame :: outer ∧
      (assembly.draft.live = true ∧ next = assembly.keep frame outer ∨
        assembly.draft.live = false ∧ next = assembly.drop frame outer) := by
  unfold closeBlock at closed
  split at closed
  · contradiction
  · next frame outer inside =>
      obtain rfl := Except.ok.inj closed
      refine ⟨frame, outer, inside, ?_⟩
      cases assembly.draft.live with
      | true => exact Or.inl ⟨rfl, rfl⟩
      | false => exact Or.inr ⟨rfl, rfl⟩

/-- A split that succeeds divides the innermost block. -/
theorem splitBlock_eq_ok {origin : Origin} {mode : BlockMode} {label : String}
    (divided : assembly.splitBlock origin mode label = .ok next) :
    ∃ frame outer, assembly.frames = frame :: outer ∧
      next = assembly.divide frame outer mode label := by
  unfold splitBlock at divided
  split at divided
  · contradiction
  · next frame outer inside =>
      split at divided
      · exact ⟨frame, outer, inside, (Except.ok.inj divided).symm⟩
      · contradiction

/-- Closing a block is one move. -/
theorem moves_closeBlock {origin : Origin}
    (closed : assembly.closeBlock origin = .ok next) : Moves assembly next := by
  obtain ⟨frame, outer, inside, ⟨live, rfl⟩ | ⟨quiet, rfl⟩⟩ := closeBlock_eq_ok closed
  · exact .single (.keep assembly frame outer inside live)
  · exact .single (.drop assembly frame outer inside quiet)

/-- Splitting a block is one move. -/
theorem moves_splitBlock {origin : Origin} {mode : BlockMode} {label : String}
    (divided : assembly.splitBlock origin mode label = .ok next) : Moves assembly next := by
  obtain ⟨frame, outer, inside, rfl⟩ := splitBlock_eq_ok divided
  exact .single (.divide assembly frame outer mode label inside)

/-- A jump that succeeds is placed as a stage. -/
theorem jump_eq_ok {origin : Origin} {target : String}
    (jumped : assembly.jump origin target = .ok next) :
    next = assembly.place (.jump target) := by
  unfold jump at jumped
  split at jumped
  · exact (Except.ok.inj jumped).symm
  · contradiction

theorem moves_jump {origin : Origin} {target : String}
    (jumped : assembly.jump origin target = .ok next) : Moves assembly next := by
  rw [jump_eq_ok jumped]
  exact .single (.steer assembly (.jump target) rfl)

/-- A mark is placed by one move and remembered by another. -/
theorem moves_mark (assembly : Assembly) (name : String) : Moves assembly (assembly.mark name) :=
  (Relation.ReflTransGen.single (.steer assembly (.mark name) rfl)).tail
    (.record (assembly.place (.mark name)) (name :: assembly.markers) assembly.taken)

/-- A declaration is one move, and a change of the declared participants is one more. -/
theorem moves_declare {origin : Origin} {command : Command} {names : List String}
    (declared : assembly.declare origin command names = .ok next) : Moves assembly next := by
  rw [(declare_eq_ok declared).2]
  exact .single (.register assembly names)

/-- Every statement is carried out by moves. -/
theorem moves_perform {origin : Origin} {statement : Statement}
    (performed : assembly.perform origin statement = .ok next) : Moves assembly next := by
  cases statement with
  | define mentions => exact moves_declare performed
  | enter mentions mode =>
      obtain ⟨middle, declared, rfl⟩ := except_map_eq_ok.mp performed
      obtain ⟨_, rfl⟩ := declare_eq_ok declared
      exact (moves_declare declared).tail
        (.change _ .enter _ mode fun _ => assembly.known_of_register _)
  | leave mentions mode =>
      obtain ⟨middle, declared, rfl⟩ := except_map_eq_ok.mp performed
      exact (moves_declare declared).tail (.change _ .leave _ mode (by simp))
  | message sender receiver arrow label =>
      obtain rfl := Except.ok.inj performed
      exact (assembly.moves_speak (.message sender.name receiver.name arrow label) rfl).tail
        (.change _ .leave _ .cross (by simp))
  | note position style mentions label =>
      obtain rfl := Except.ok.inj performed
      exact assembly.moves_speak (.note position style _ label) rfl
  | mark name =>
      obtain rfl := Except.ok.inj performed
      exact moves_mark assembly name
  | jump target => exact moves_jump performed
  | openBlock mode label =>
      obtain rfl := Except.ok.inj performed
      exact .single (.openBlock assembly origin mode label)
  | splitBlock mode label => exact moves_splitBlock performed
  | closeBlock => exact moves_closeBlock performed

/-- Counting a statement is no more than a further move. -/
theorem moves_take {located : Located} (taken : assembly.take located = .ok next) :
    Moves assembly next := by
  obtain ⟨performed, accepted, rfl⟩ := except_map_eq_ok.mp taken
  exact (moves_perform accepted).tail (.record performed performed.markers (assembly.taken + 1))

theorem run_cons (assembly : Assembly) (located : Located) (rest : List Located) :
    assembly.run (located :: rest) = (assembly.take located).bind fun next => next.run rest := by
  rw [run, List.foldlM_cons]
  rfl

/-- A run is a sequence of moves. -/
theorem moves_run {statements : List Located} (ran : assembly.run statements = .ok next) :
    Moves assembly next := by
  induction statements generalizing assembly with
  | nil =>
      obtain rfl := Except.ok.inj ran
      exact .refl
  | cons located rest ih =>
      rw [run_cons] at ran
      obtain ⟨middle, taken, ran⟩ := except_bind_eq_ok.mp ran
      exact (moves_take taken).trans (ih ran)

/-- What every move keeps holds of whatever the moves lead to. -/
theorem Moves.keeps {Holds : Assembly → Prop} (moves : Moves assembly next)
    (keeps : ∀ before after, Move before after → Holds before → Holds after)
    (holds : Holds assembly) : Holds next := by
  induction moves with
  | refl => exact holds
  | tail _ move ih => exact keeps _ _ move ih

/-- At the end of a document everyone who is visible ends. -/
def ended (assembly : Assembly) (header : Header) : Assembly :=
  assembly.change .leave assembly.roster.visibleInOrder header.terminators

/-- A document that makes a diagram is run to its end, and no block is open there. -/
theorem assemble_eq_ok {document : Document} {diagram : Diagram}
    (assembled : document.assemble = .ok diagram) :
    ∃ last, Assembly.run {} document.statements = .ok last ∧ last.frames = [] ∧
      diagram = ⟨document.header, (last.ended document.header).roster.columns.map Column.name,
        (last.ended document.header).draft.stages⟩ := by
  obtain ⟨last, ran, finished⟩ := except_bind_eq_ok.mp assembled
  unfold finish at finished
  split at finished
  · contradiction
  · next closed => exact ⟨last, ran, closed, (Except.ok.inj finished).symm⟩

/-- What was written without an open block is the walk of the draft. -/
theorem written_of_frames_eq_nil (outermost : assembly.frames = []) :
    assembly.written = Stage.walkAll assembly.draft.stages := by
  rw [written, levels, outermost]
  rfl

end Assembly

/-- This document has a block that is split, and in it a block that is dropped with a marker to
which the document jumps later. -/
def Document.tour : Document where
  header := { terminators := .bar }
  statements :=
    [ ⟨.note .over .note [] "start", .origin⟩,
      ⟨.message { name := "A" } { name := "B" } .plain "call", .origin⟩,
      ⟨.openBlock .alternative "free", .origin⟩,
      ⟨.enter [{ name := "C" }, { name := "A" }] .bar, .origin⟩,
      ⟨.enter [{ name := "D" }] .bar, .origin⟩,
      ⟨.splitBlock .otherwise "busy", .origin⟩,
      ⟨.leave [{ name := "C" }] .cross, .origin⟩,
      ⟨.openBlock .loop "", .origin⟩,
      ⟨.mark "later", .origin⟩,
      ⟨.closeBlock, .origin⟩,
      ⟨.closeBlock, .origin⟩,
      ⟨.jump "later", .origin⟩,
      ⟨.message { name := "B" } { name := "A", flag := some .depart } .plain "", .origin⟩ ]

end Lifeline
