import Lifeline.Proofs.KeptBlocks
import Lifeline.Proofs.UniqueNames
import Lifeline.Proofs.Usage

/-! The edges of a block stand around the columns of everything inside of it. -/

namespace Lifeline

namespace Stage

/-- These are the names of the columns that a stage needs by itself. -/
def columnNames (stage : Stage) : List String :=
  stage.about.filter (fun name => !Column.isReserved name) ++ stage.edges

/-- The columns with the given names stand around a block if all that is inside of it stands between
its edges, and its edges stand between the outer columns. Where no name is given twice, one column
is on the left of another exactly if both names are a sublist in this order. -/
def EnclosedIn (columns : List String) : Stage → Prop
  | .block left right sections =>
      ["[", left, right, "]"].Sublist columns ∧
        ∀ stage ∈ walkSections sections, ∀ name ∈ stage.columnNames,
          ["[", left, name, right, "]"].Sublist columns
  | _ => True

/-- The columns of a roster stand around a block. -/
def EnclosedBy (inner : List Column) : Stage → Prop
  | .block left right sections =>
      ∃ number, left = (Column.edge number .left).name ∧ right = (Column.edge number .right).name ∧
        [Column.edge number .left, Column.edge number .right].Sublist inner ∧
          ∀ stage ∈ walkSections sections, ∀ name ∈ stage.columnNames, ∃ column,
            column.name = name ∧
              [Column.edge number .left, column, Column.edge number .right].Sublist inner
  | _ => True

/-- Columns that are added do not matter. -/
theorem EnclosedBy.mono {stage : Stage} {inner more : List Column}
    (enclosed : stage.EnclosedBy inner) (grown : inner.Sublist more) : stage.EnclosedBy more := by
  cases stage with
  | block left right sections =>
      obtain ⟨number, leftEq, rightEq, edges, within⟩ := enclosed
      refine ⟨number, leftEq, rightEq, edges.trans grown, ?_⟩
      intro stage member name named
      obtain ⟨column, same, between⟩ := within stage member name named
      exact ⟨column, same, between.trans grown⟩
  | _ => trivial

/-- What is enclosed by columns is enclosed by their names. -/
theorem EnclosedBy.enclosedIn {stage : Stage} {roster : Roster}
    (enclosed : stage.EnclosedBy roster.inner) :
    stage.EnclosedIn (roster.columns.map Column.name) := by
  have frame {columns : List Column} (inside : columns.Sublist roster.inner) :
      ("[" :: columns.map Column.name ++ ["]"]).Sublist (roster.columns.map Column.name) := by
    rw [Roster.map_name_columns]
    exact ((inside.map Column.name).cons_cons "[").append_right ["]"]
  cases stage with
  | block left right sections =>
      obtain ⟨number, rfl, rfl, edges, within⟩ := enclosed
      refine ⟨frame edges, ?_⟩
      intro stage member name named
      obtain ⟨column, rfl, between⟩ := within stage member name named
      exact frame between
  | _ => trivial

end Stage

namespace Roster

/-- The edges of a block stand around each column that it uses. -/
theorem sublist_enclose {roster : Roster} {block : Nat} {used : List Column} {column : Column}
    (member : column ∈ roster.inner) (hit : column ∈ used) :
    [Column.edge block .left, column, Column.edge block .right].Sublist
      (roster.enclose block used).inner := by
  obtain ⟨before, middle, after, split, enclosed, clean, _⟩ := roster.enclose_eq block used
  have within : column ∈ middle := by
    rw [split, List.mem_append, List.mem_append] at member
    rcases member with (left | inside) | right
    · exact absurd hit (clean column (List.mem_append_left _ left))
    · exact inside
    · exact absurd hit (clean column (List.mem_append_right _ right))
  have tail : [Column.edge block .right].Sublist (.edge block .right :: after) :=
    List.singleton_sublist.mpr List.mem_cons_self
  have body : [column, Column.edge block .right].Sublist (middle ++ .edge block .right :: after) :=
    (List.singleton_sublist.mpr within).append tail
  rw [enclosed, List.append_assoc]
  exact (body.cons_cons (.edge block .left)).trans (List.sublist_append_right before _)

/-- The left edge of a block stands in front of its right edge. -/
theorem sublist_edges_enclose (roster : Roster) (block : Nat) (used : List Column) :
    [Column.edge block .left, Column.edge block .right].Sublist
      (roster.enclose block used).inner := by
  obtain ⟨before, middle, after, _, enclosed, _, _⟩ := roster.enclose_eq block used
  have tail : [Column.edge block .right].Sublist (middle ++ .edge block .right :: after) :=
    List.singleton_sublist.mpr (List.mem_append_right _ List.mem_cons_self)
  rw [enclosed, List.append_assoc]
  exact (tail.cons_cons (.edge block .left)).trans (List.sublist_append_right before _)

end Roster

namespace Assembly

variable {assembly : Assembly}

/-- Every column that a written stage needs is in the roster. -/
theorem Sound.mem_inner_of_needs (sound : assembly.Sound) {stage : Stage}
    (written : stage ∈ assembly.written) {column : Column} (needs : stage.Needs column) :
    column ∈ assembly.roster.inner := by
  cases column with
  | outer side => exact needs.elim
  | participant name =>
      obtain ⟨about, free⟩ := needs
      have column := sound.informed stage written name about
      rw [Column.named_eq_participant free] at column
      exact Roster.participant_mem_columns.mp column
  | edge number side =>
      obtain ⟨kept, keptIn, same⟩ := sound.mem_edges_iff.mp
        (List.mem_flatMap.mpr ⟨stage, written, needs⟩)
      obtain rfl : kept = (number, side) := Column.name_edge_injective same
      exact Roster.mem_edges.mp keptIn

/-- The columns that a written stage needs are those under the names in the stage. -/
theorem Sound.exists_column (sound : assembly.Sound) {stage : Stage}
    (written : stage ∈ assembly.written) {name : String} (named : name ∈ stage.columnNames) :
    ∃ column ∈ assembly.roster.inner, column.name = name ∧ stage.Needs column := by
  rcases List.mem_append.mp named with about | edge
  · obtain ⟨member, free⟩ := List.mem_filter.mp about
    have needs : stage.Needs (.participant name) := ⟨member, by simpa using free⟩
    exact ⟨.participant name, sound.mem_inner_of_needs written needs, rfl, needs⟩
  · obtain ⟨kept, keptIn, rfl⟩ := sound.mem_edges_iff.mp
      (List.mem_flatMap.mpr ⟨stage, written, edge⟩)
    exact ⟨.edge kept.1 kept.2, Roster.mem_edges.mp keptIn, rfl, edge⟩

/-- What stands in the innermost block has been written. -/
theorem walk_subset_written {frame : Frame} {outer : List Frame}
    (inside : assembly.frames = frame :: outer) {stage : Stage}
    (member : stage ∈ Level.walk ⟨frame.closed, assembly.draft⟩) : stage ∈ assembly.written := by
  rw [written_inside inside]
  exact List.mem_append_right _ member

/-- A block that is kept is enclosed, since what is needed inside of it has been used. -/
theorem enclosedBy_keep {frame : Frame} {outer : List Frame} (sound : assembly.Sound)
    (accounted : assembly.Accounted) (inside : assembly.frames = frame :: outer) :
    (frame.block assembly.draft.stages).EnclosedBy
      (assembly.keep frame outer).roster.inner := by
  refine ⟨frame.number, rfl, rfl, assembly.roster.sublist_edges_enclose _ _, ?_⟩
  intro stage member name named
  rw [walkSections_sections] at member
  obtain ⟨column, inner, same, needs⟩ :=
    sound.exists_column (walk_subset_written inside member) named
  have used : column ∈ assembly.draft.used :=
    (forall_levels_inside accounted inside column).mpr ⟨stage, member, needs⟩
  exact ⟨column, same, Roster.sublist_enclose inner used⟩

/-- The columns stand around all blocks that have been kept. -/
def Enclosing (assembly : Assembly) : Prop :=
  ∀ stage ∈ assembly.kept, stage.EnclosedBy assembly.roster.inner

/-- Every move keeps the blocks around all that is inside of them. -/
theorem enclosing_of_move (before after : Assembly) (move : Move before after)
    (holds : before.Sound ∧ before.Accounted ∧ before.Enclosing) :
    after.Sound ∧ after.Accounted ∧ after.Enclosing := by
  obtain ⟨sound, accounted, enclosing⟩ := holds
  refine ⟨sound_of_move _ _ move sound, accounted_of_move _ _ move accounted, ?_⟩
  have grown := sublist_inner_of_move before after move
  intro stage member
  rcases kept_of_move before after move sound.quiet with same | ⟨frame, outer, inside, rfl, perm⟩
  · rw [same] at member
    exact (enclosing stage member).mono grown
  · rcases List.mem_cons.mp (perm.mem_iff.mp member) with rfl | old
    · exact enclosedBy_keep sound accounted inside
    · exact (enclosing stage old).mono grown

/-- In every assembly that a document leads to, the blocks enclose all that is inside of them. -/
theorem enclosing_of_moves (moves : Moves {} assembly) : assembly.Enclosing :=
  (moves.keeps enclosing_of_move
    ⟨sound_of_moves .refl, accounted_start, fun _ member => absurd member List.not_mem_nil⟩).2.2

end Assembly

/-- If no participant of a document is named like an edge of a block, then the columns of its
diagram have different names, and the edges of each block stand around everything inside of it. -/
theorem enclosedIn_assemble {document : Document} {diagram : Diagram}
    (assembled : document.assemble = .ok diagram)
    (plain : ∀ name ∈ document.mentioned, Column.isEdgeName name = false) :
    diagram.columns.Nodup ∧
      ∀ stage ∈ Stage.walkAll diagram.stages, stage.EnclosedIn diagram.columns := by
  obtain ⟨final, moves, lists, columns, written⟩ := Assembly.final_of_assemble assembled
  have sound := Assembly.sound_of_moves moves
  rw [columns, written]
  constructor
  · rw [(sound.proper lists).nodup_names_iff]
    intro edge _ participant
    rw [lists] at participant
    have ordinary := plain _ (Column.mem_listed.mp participant).1
    rw [Column.isEdgeName_name_edge] at ordinary
    contradiction
  · intro stage member
    cases flat : stage.isBlock with
    | true =>
        exact (Assembly.enclosing_of_moves moves stage
          (List.mem_filter.mpr ⟨member, flat⟩)).enclosedIn
    | false =>
        cases stage with
        | block left right sections => contradiction
        | _ => trivial

theorem enclosedIn_tour :
    ∃ diagram, Document.tour.assemble = .ok diagram ∧
      (∀ name ∈ Document.tour.mentioned, Column.isEdgeName name = false) ∧
      diagram.columns.Nodup ∧
        ∀ stage ∈ Stage.walkAll diagram.stages, stage.EnclosedIn diagram.columns := by
  have assembled : ∃ diagram, Document.tour.assemble = .ok diagram := ⟨_, rfl⟩
  have plain : ∀ name ∈ Document.tour.mentioned, Column.isEdgeName name = false := by decide
  obtain ⟨diagram, assembled⟩ := assembled
  exact ⟨diagram, assembled, plain, enclosedIn_assemble assembled plain⟩

end Lifeline
