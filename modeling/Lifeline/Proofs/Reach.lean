import Lifeline.Proofs.Faithfulness
import Lifeline.Proofs.Neighbours

/-! A block in which nobody takes part stands around all who have been mentioned before its end. -/

namespace Lifeline

namespace Statement

/-- These are the numbers of the blocks that are open behind a statement, innermost first. -/
def opened (blocks : Nat) (numbers : List Nat) : Statement → List Nat
  | .openBlock _ _ => blocks :: numbers
  | .closeBlock => numbers.tail
  | _ => numbers

/-- A plain statement neither opens nor closes a block. -/
theorem opened_of_isPlain {statement : Statement} (plain : statement.isPlain = true)
    (blocks : Nat) (numbers : List Nat) : statement.opened blocks numbers = numbers := by
  cases statement <;> first | rfl | contradiction

end Statement

/-- The statements are gone through once, with the number of the next block. -/
def openBlocks (blocks : Nat) (numbers : List Nat) : List Located → List Nat
  | [] => numbers
  | located :: rest =>
      openBlocks (located.statement.count blocks) (located.statement.opened blocks numbers) rest

/-- A document closes a block behind the given statements if they come first in it, the block is the
innermost one that is open behind them, and the next statement closes it. -/
def Document.ClosesBehind (document : Document) (number : Nat) (earlier : List Located) : Prop :=
  ∃ closing later, document.statements = earlier ++ closing :: later ∧
    closing.statement = .closeBlock ∧ (openBlocks 0 [] earlier).head? = some number

namespace Stage

/-- A block is bare if nothing inside of it is about a participant, and no block is inside of it. -/
def isBare : Stage → Bool
  | .block _ _ sections => (walkSections sections).all fun stage => stage.columnNames.isEmpty
  | _ => false

/-- A stage names every column that it needs. -/
theorem Needs.name_mem_columnNames {stage : Stage} {column : Column} (needs : stage.Needs column) :
    column.name ∈ stage.columnNames := by
  cases column with
  | outer side => exact needs.elim
  | participant name =>
      obtain ⟨about, free⟩ := needs
      exact List.mem_append_left _ (List.mem_filter.mpr ⟨about, by simp [Column.name, free]⟩)
  | edge number side => exact List.mem_append_right _ needs

end Stage

namespace Assembly

variable {assembly next last : Assembly} {frame : Frame} {outer : List Frame}

/-- A change of participants keeps no block. -/
theorem kept_change (assembly : Assembly) (change : Change) (names : List String)
    (mode : Terminator) : (assembly.change change names mode).kept = assembly.kept := by
  rcases assembly.written_change change names mode with ⟨_, same⟩ | ⟨_, extended⟩
  · rw [same]
  · exact extended.filter_isBlock

/-- A message and a note keep no block. -/
theorem kept_speak (assembly : Assembly) (names : List String) {stage : Stage}
    (spoken : stage.speaks = true) : (assembly.speak names stage).kept = assembly.kept := by
  have begun : ((assembly.register names).change .enter names .box).kept = assembly.kept :=
    kept_change (assembly.register names) .enter names .box
  rw [speak, kept_place _ (Stage.walk_of_speaks spoken) (Stage.isBlock_of_speaks spoken), ← begun]
  exact kept_of_written (written_use _ _)

/-- A plain statement keeps no block. -/
theorem kept_of_isPlain {origin : Origin} {statement : Statement}
    (performed : assembly.perform origin statement = .ok next) (plain : statement.isPlain = true) :
    next.kept = assembly.kept := by
  cases statement with
  | define mentions =>
      obtain ⟨_, rfl⟩ := declare_eq_ok performed
      rfl
  | enter mentions mode =>
      obtain ⟨middle, declared, rfl⟩ := except_map_eq_ok.mp performed
      obtain ⟨_, rfl⟩ := declare_eq_ok declared
      exact kept_change _ _ _ _
  | leave mentions mode =>
      obtain ⟨middle, declared, rfl⟩ := except_map_eq_ok.mp performed
      obtain ⟨_, rfl⟩ := declare_eq_ok declared
      exact kept_change _ _ _ _
  | message sender receiver arrow label =>
      obtain rfl := Except.ok.inj performed
      exact (kept_change _ _ _ _).trans (assembly.kept_speak _ rfl)
  | note position style mentions label =>
      obtain rfl := Except.ok.inj performed
      exact assembly.kept_speak _ rfl
  | mark name =>
      obtain rfl := Except.ok.inj performed
      exact assembly.kept_place rfl rfl
  | jump target =>
      rw [jump_eq_ok performed]
      exact assembly.kept_place rfl rfl
  | openBlock mode label => contradiction
  | splitBlock mode label => contradiction
  | closeBlock => contradiction

/-- Only the end of a block can add to the blocks that are kept. -/
theorem kept_perform {origin : Origin} {statement : Statement} (quiet : assembly.Quiet)
    (performed : assembly.perform origin statement = .ok next) :
    next.kept = assembly.kept ∨ statement = .closeBlock ∧
      ∃ frame outer, assembly.frames = frame :: outer ∧ next = assembly.keep frame outer ∧
        next.kept.Perm (frame.block assembly.draft.stages :: assembly.kept) := by
  cases stated : statement.isPlain with
  | true => exact Or.inl (kept_of_isPlain performed stated)
  | false =>
      cases statement with
      | openBlock mode label =>
          obtain rfl := Except.ok.inj performed
          exact Or.inl (kept_of_written (assembly.written_openBlock _ _ _))
      | splitBlock mode label =>
          obtain ⟨frame, outer, inside, rfl⟩ := splitBlock_eq_ok performed
          exact Or.inl (kept_of_written (written_divide inside _ _))
      | closeBlock =>
          obtain ⟨frame, outer, inside, ⟨live, rfl⟩ | ⟨dead, rfl⟩⟩ := closeBlock_eq_ok performed
          · rcases kept_of_move _ _ (.keep assembly frame outer inside live) quiet with same | kept
            · exact Or.inl same
            · exact Or.inr ⟨rfl, kept⟩
          · exact Or.inl (kept_drop quiet inside dead)
      | _ => contradiction

/-- Whatever block has been kept in a run was kept where it closed. -/
theorem closed_of_mem_kept {statements : List Located} {stage : Stage} (moves : Moves {} assembly)
    (ran : assembly.run statements = .ok last) (member : stage ∈ last.kept)
    (new : stage ∉ assembly.kept) :
    ∃ earlier closing later middle frame outer, statements = earlier ++ closing :: later ∧
      closing.statement = .closeBlock ∧ assembly.run earlier = .ok middle ∧
      middle.frames = frame :: outer ∧ stage = frame.block middle.draft.stages ∧
      Moves middle (middle.keep frame outer) ∧ Moves (middle.keep frame outer) last := by
  induction statements generalizing assembly with
  | nil =>
      obtain rfl := Except.ok.inj ran
      contradiction
  | cons located rest ih =>
      rw [run_cons] at ran
      obtain ⟨middle, taken, ran⟩ := except_bind_eq_ok.mp ran
      by_cases old : stage ∈ middle.kept
      · obtain ⟨performed, accepted, rfl⟩ := except_map_eq_ok.mp taken
        have keptIn : stage ∈ performed.kept := old
        rcases kept_perform (quiet_of_moves moves) accepted with
          same | ⟨closes, frame, outer, inside, rfl, perm⟩
        · rw [same] at keptIn
          contradiction
        · obtain rfl := (List.mem_cons.mp (perm.mem_iff.mp keptIn)).resolve_right new
          exact ⟨[], located, rest, assembly, frame, outer, rfl, closes, rfl, inside, rfl,
            moves_perform accepted,
            (Relation.ReflTransGen.single (.record _ _ _)).trans (moves_run ran)⟩
      · obtain ⟨earlier, closing, later, reached, frame, outer, rfl, closes, ranTo, further⟩ :=
          ih (moves.trans (moves_take taken)) ran old
        refine ⟨located :: earlier, closing, later, reached, frame, outer, rfl, closes, ?_, further⟩
        rw [run_cons, taken]
        exact ranTo

/-- The open frames have the numbers of the blocks that are open. -/
theorem opened_perform {origin : Origin} {statement : Statement}
    (performed : assembly.perform origin statement = .ok next) :
    next.frames.map Frame.number =
        statement.opened assembly.blocks (assembly.frames.map Frame.number) ∧
      next.blocks = statement.count assembly.blocks := by
  cases stated : statement.isPlain with
  | true =>
      obtain ⟨_, grows⟩ := grows_perform performed stated
      rw [Statement.opened_of_isPlain stated, Statement.count_of_isPlain stated, grows.frames]
      exact ⟨rfl, grows.blocks⟩
  | false =>
      cases statement with
      | openBlock mode label =>
          obtain rfl := Except.ok.inj performed
          exact ⟨rfl, rfl⟩
      | splitBlock mode label =>
          obtain ⟨frame, outer, inside, rfl⟩ := splitBlock_eq_ok performed
          rw [inside]
          exact ⟨rfl, rfl⟩
      | closeBlock =>
          obtain ⟨frame, outer, inside, ⟨_, rfl⟩ | ⟨_, rfl⟩⟩ := closeBlock_eq_ok performed
          · rw [inside]
            exact ⟨rfl, rfl⟩
          · rw [inside]
            exact ⟨rfl, rfl⟩
      | _ => contradiction

/-- After a run, the open blocks are those that its statements have left open. -/
theorem opened_run {statements : List Located} (ran : assembly.run statements = .ok last) :
    last.frames.map Frame.number =
      openBlocks assembly.blocks (assembly.frames.map Frame.number) statements := by
  induction statements generalizing assembly with
  | nil =>
      obtain rfl := Except.ok.inj ran
      rfl
  | cons located rest ih =>
      rw [run_cons] at ran
      obtain ⟨middle, taken, ran⟩ := except_bind_eq_ok.mp ran
      obtain ⟨performed, accepted, rfl⟩ := except_map_eq_ok.mp taken
      obtain ⟨numbers, blocks⟩ := opened_perform accepted
      have later := ih ran
      rw [openBlocks, ← numbers, ← blocks]
      exact later

/-- Nothing is used in a block in which nobody takes part. -/
theorem used_eq_nil_of_isBare (accounted : assembly.Accounted)
    (inside : assembly.frames = frame :: outer)
    (bare : (frame.block assembly.draft.stages).isBare = true) : assembly.draft.used = [] := by
  rw [Frame.block, Stage.isBare, walkSections_sections, List.all_eq_true] at bare
  rw [List.eq_nil_iff_forall_not_mem]
  intro column used
  obtain ⟨stage, within, needs⟩ := (forall_levels_inside accounted inside column).mp used
  have none := List.isEmpty_iff.mp (bare stage within)
  have some := needs.name_mem_columnNames
  rw [none] at some
  exact absurd some List.not_mem_nil

/-- The edges of a bare block come to stand around all participants that are there. -/
theorem beside_keep_of_isBare {names : List String} (moves : Moves {} assembly)
    (lists : assembly.Lists names) (inside : assembly.frames = frame :: outer)
    (bare : (frame.block assembly.draft.stages).isBare = true) :
    (assembly.keep frame outer).roster.beside frame.number =
      .edge frame.number .left :: (Column.listed names).map Column.participant ++
        [.edge frame.number .right] := by
  have sound := sound_of_moves moves
  have unused := used_eq_nil_of_isBare (accounted_of_moves moves) inside bare
  obtain ⟨before, middle, after, split, seen, _, ⟨⟨column, _, used⟩, _⟩ | ⟨rfl, rfl, _⟩⟩ :=
    Roster.beside_enclose_eq sound.framed (sound.numbered.notMem_inner inside) assembly.draft.used
  · rw [unused] at used
    exact absurd used List.not_mem_nil
  · rw [List.nil_append, List.append_nil] at split
    rw [← split, ← Roster.participants, lists] at seen
    exact seen

/-- Once a block has been kept, participants who come later stand behind all columns beside it. -/
theorem exists_more_beside {number : Nat} (moves : Moves {} assembly) (later : Moves assembly next)
    (kept : ∀ side, Column.edge number side ∈ assembly.roster.inner) :
    ∃ more, next.roster.beside number =
        assembly.roster.beside number ++ more.map Column.participant ∧
      next.roster.participants = assembly.roster.participants ++ more := by
  have numbered := (sound_of_moves moves).numbered
  obtain ⟨behind, grown⟩ := beside_prefix_of_moves numbered later (kept .left)
  have proper := proper_of_moves (moves.trans later)
  have beside (column : Column) (member : column ∈ behind) :
      column ∈ next.roster.beside number := by
    rw [← grown]
    exact List.mem_append_right _ member
  have framed : ∀ side, Column.outer side ∉ behind := fun side member =>
    proper.framed side (List.mem_of_mem_filter (beside _ member))
  have absent : ∀ side, Column.edge number side ∉ behind := by
    intro side member
    have distinct : (next.roster.beside number).Nodup := proper.distinct.filter _
    rw [← grown, List.nodup_append'] at distinct
    have own : Column.edge number side ∈ assembly.roster.beside number :=
      List.mem_filter.mpr ⟨kept side, by simp [Column.isNeighbour]⟩
    exact distinct.2.2 own member
  have neighbours : behind.filter (Column.isNeighbour number) = behind :=
    List.filter_eq_self.mpr fun column member => (List.mem_filter.mp (beside column member)).2
  have names := Column.filter_isNeighbour framed absent
  rw [neighbours] at names
  refine ⟨behind.filterMap Column.participant?, ?_, ?_⟩
  · rw [← names, grown]
  · rw [Roster.participants, Roster.participants,
      ← Column.filterMap_participant?_filter next.roster.inner number, ← Roster.beside, ← grown,
      List.filterMap_append, Roster.beside, Column.filterMap_participant?_filter]

/-- From the end of a bare block on, those mentioned by then stand between its edges. -/
theorem exists_beside_of_isBare {document : Document} {stage : Stage}
    (ran : run {} document.statements = .ok last) (kept : stage ∈ last.kept)
    (bare : stage.isBare = true) (later : Moves last next) :
    ∃ number sections earlier more,
      stage = .block (Column.edge number .left).name (Column.edge number .right).name sections ∧
      document.ClosesBehind number earlier ∧
      next.roster.participants =
        Column.listed (Document.mentioned { document with statements := earlier }) ++ more ∧
      next.roster.beside number =
        .edge number .left ::
          (Column.listed (Document.mentioned { document with statements := earlier })).map
            Column.participant ++ .edge number .right :: more.map Column.participant := by
  obtain ⟨earlier, closing, rest, middle, frame, outer, statements, closes, ranTo, inside, rfl,
    close, further⟩ := closed_of_mem_kept .refl ran kept List.not_mem_nil
  have moves : Moves {} middle := moves_run ranTo
  have lists := @lists_document { document with statements := earlier } middle ranTo
  have enclosed := beside_keep_of_isBare moves lists inside bare
  have number : (openBlocks 0 [] earlier).head? = some frame.number := by
    have numbers := opened_run ranTo
    rw [inside] at numbers
    exact congrArg List.head? numbers.symm
  have edges (side : Side) :
      Column.edge frame.number side ∈ (middle.keep frame outer).roster.inner := by
    apply List.mem_of_mem_filter (p := Column.isNeighbour frame.number)
    rw [← Roster.beside, enclosed]
    cases side <;> simp
  have known : (middle.keep frame outer).roster.participants = middle.roster.participants :=
    middle.roster.participants_enclose _ _
  obtain ⟨more, beside, participants⟩ :=
    exists_more_beside (moves.trans close) (further.trans later) edges
  refine ⟨frame.number, _, earlier, more, rfl, ⟨closing, rest, statements, closes, number⟩, ?_, ?_⟩
  · rw [participants, known, lists]
  · rw [beside, enclosed, List.append_assoc, List.singleton_append]

end Assembly

/-- If no participant of a document is named like an edge of a block, then each bare block of its
diagram stands around all participants who are mentioned before the block closes, and around nobody
else: those who are mentioned later stand behind it. -/
theorem beside_assemble_of_isBare {document : Document} {diagram : Diagram}
    (assembled : document.assemble = .ok diagram)
    (plain : ∀ name ∈ document.mentioned, Column.isEdgeName name = false)
    {left right : String} {sections : List (Section Stage)}
    (written : Stage.block left right sections ∈ Stage.walkAll diagram.stages)
    (bare : (Stage.block left right sections).isBare = true) :
    ∃ number earlier more, document.ClosesBehind number earlier ∧
      left = (Column.edge number .left).name ∧ right = (Column.edge number .right).name ∧
      Column.listed document.mentioned =
        Column.listed (Document.mentioned { document with statements := earlier }) ++ more ∧
      diagram.beside left right =
        "[" :: left :: Column.listed (Document.mentioned { document with statements := earlier }) ++
          right :: more ++ ["]"] := by
  obtain ⟨last, ran, closed, rfl⟩ := Assembly.assemble_eq_ok assembled
  have outermost : (last.ended document.header).frames = [] :=
    (last.frames_change _ _ _).trans closed
  -- The end of the document adds no block.
  have kept : Stage.block left right sections ∈ last.kept := by
    rw [← last.kept_change .leave last.roster.visibleInOrder document.header.terminators,
      Assembly.kept, ← Assembly.ended, Assembly.written_of_frames_eq_nil outermost]
    exact List.mem_filter.mpr ⟨written, rfl⟩
  have ended : Assembly.Moves last (last.ended document.header) :=
    .single (.change last .leave _ _ (by simp))
  obtain ⟨number, _, earlier, more, block, closes, participants, beside⟩ :=
    Assembly.exists_beside_of_isBare ran kept bare ended
  obtain ⟨rfl, rfl, rfl⟩ := Stage.block.inj block
  have lists : (last.ended document.header).Lists document.mentioned :=
    (Assembly.lists_document ran).congr (Assembly.inner_change _ _ _ _)
  refine ⟨number, earlier, more, closes, rfl, rfl, lists.symm.trans participants, ?_⟩
  rw [Diagram.beside, Roster.filter_isBeside (lists.plain plain), beside]
  simp [Column.name, Function.comp_def]

/-- In this document the last participant is mentioned behind a block that is drawn for a note about
nobody. -/
def Document.latecomer : Document where
  header := {}
  statements :=
    [ ⟨.message { name := "A" } { name := "B" } .plain "", .origin⟩,
      ⟨.openBlock .loop "busy", .origin⟩,
      ⟨.note .over .note [] "wait", .origin⟩,
      ⟨.closeBlock, .origin⟩,
      ⟨.message { name := "B" } { name := "C" } .plain "", .origin⟩ ]

theorem beside_assemble_of_isBare_latecomer :
    ∃ diagram sections, Document.latecomer.assemble = .ok diagram ∧
      (∀ name ∈ Document.latecomer.mentioned, Column.isEdgeName name = false) ∧
      Stage.block "__BLOCK0[" "__BLOCK0]" sections ∈ Stage.walkAll diagram.stages ∧
      (Stage.block "__BLOCK0[" "__BLOCK0]" sections).isBare = true ∧
      ∃ number earlier more, Document.latecomer.ClosesBehind number earlier ∧
        "__BLOCK0[" = (Column.edge number .left).name ∧
        "__BLOCK0]" = (Column.edge number .right).name ∧
        Column.listed Document.latecomer.mentioned =
          Column.listed (Document.mentioned { Document.latecomer with statements := earlier }) ++
            more ∧
        diagram.beside "__BLOCK0[" "__BLOCK0]" =
          "[" :: "__BLOCK0[" ::
            Column.listed (Document.mentioned { Document.latecomer with statements := earlier }) ++
              "__BLOCK0]" :: more ++ ["]"] := by
  have plain : ∀ name ∈ Document.latecomer.mentioned, Column.isEdgeName name = false := by decide
  have checked : ∃ diagram, Document.latecomer.assemble = .ok diagram ∧
      (Stage.walkAll diagram.stages)[2]? = some (.block "__BLOCK0[" "__BLOCK0]"
        [⟨.loop, "busy", [.note .over .note ["[", "]"] "wait"]⟩]) := ⟨_, rfl, rfl⟩
  obtain ⟨diagram, assembled, found⟩ := checked
  have written := List.mem_of_getElem? found
  exact ⟨diagram, _, assembled, plain, written, rfl,
    beside_assemble_of_isBare assembled plain written rfl⟩

/-- A bare block does not span the whole diagram if a participant comes later. -/
theorem assemble_latecomer :
    ∃ diagram sections, Document.latecomer.assemble = .ok diagram ∧
      (∀ name ∈ Document.latecomer.mentioned, Column.isEdgeName name = false) ∧
      Stage.block "__BLOCK0[" "__BLOCK0]" sections ∈ Stage.walkAll diagram.stages ∧
      (Stage.block "__BLOCK0[" "__BLOCK0]" sections).isBare = true ∧
      diagram.columns = ["[", "__BLOCK0[", "A", "B", "__BLOCK0]", "C", "]"] ∧
      ¬["__BLOCK0[", "C", "__BLOCK0]"].Sublist diagram.columns := by
  have plain : ∀ name ∈ Document.latecomer.mentioned, Column.isEdgeName name = false := by decide
  have checked : ∃ diagram, Document.latecomer.assemble = .ok diagram ∧
      (Stage.walkAll diagram.stages)[2]? = some (.block "__BLOCK0[" "__BLOCK0]"
        [⟨.loop, "busy", [.note .over .note ["[", "]"] "wait"]⟩]) ∧
      diagram.columns = ["[", "__BLOCK0[", "A", "B", "__BLOCK0]", "C", "]"] := ⟨_, rfl, rfl, rfl⟩
  obtain ⟨diagram, assembled, found, columns⟩ := checked
  refine ⟨diagram, _, assembled, plain, List.mem_of_getElem? found, rfl, columns, ?_⟩
  rw [columns]
  decide

end Lifeline
