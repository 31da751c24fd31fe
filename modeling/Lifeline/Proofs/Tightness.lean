import Lifeline.Proofs.Neighbours
import Lifeline.Proofs.NormalForm

/-! The edges of a block stand directly beside the outermost participants who take part in it. -/

namespace Lifeline

def Side.opposite : Side → Side
  | .left => .right
  | .right => .left

namespace Stage

mutual

/-- A stage inside of another one is walked together with all that is inside of it. -/
theorem walk_subset_walk (whole : Stage) : ∀ stage ∈ whole.walk, stage.walk ⊆ whole.walk := by
  intro stage member
  cases whole with
  | block left right sections =>
      rw [walk] at member
      rcases List.mem_cons.mp member with rfl | within
      · exact List.Subset.refl _
      · rw [walk]
        exact List.Subset.trans (walk_subset_walkSections sections stage within)
          (List.subset_cons_self _ _)
  | _ =>
      rw [walk] at member
      · rw [List.mem_singleton.mp member]
        exact List.Subset.refl _
      · intros
        contradiction

theorem walk_subset_walkSections (sections : List (Section Stage)) :
    ∀ stage ∈ walkSections sections, stage.walk ⊆ walkSections sections := by
  intro stage member
  match sections with
  | [] => exact absurd member List.not_mem_nil
  | ⟨mode, label, stages⟩ :: rest =>
      rw [walkSections] at member ⊢
      rcases List.mem_append.mp member with first | later
      · exact List.Subset.trans (walk_subset_walkAll stages stage first)
          (List.subset_append_left _ _)
      · exact List.Subset.trans (walk_subset_walkSections rest stage later)
          (List.subset_append_right _ _)

/-- A stage in a list is walked together with all that is inside of it. -/
theorem walk_subset_walkAll (stages : List Stage) :
    ∀ stage ∈ walkAll stages, stage.walk ⊆ walkAll stages := by
  intro stage member
  match stages with
  | [] => exact absurd member List.not_mem_nil
  | first :: rest =>
      rw [walkAll] at member ⊢
      rcases List.mem_append.mp member with own | later
      · exact List.Subset.trans (walk_subset_walk first stage own) (List.subset_append_left _ _)
      · exact List.Subset.trans (walk_subset_walkAll rest stage later)
          (List.subset_append_right _ _)

end

/-- These are the participants who take part in a block with the given sections. -/
def participants (sections : List (Section Stage)) : List String :=
  ((walkSections sections).flatMap about).filter Column.isOrdinary

/-- A block stands tight in a diagram if, with the edges of other blocks left out, all who take part
in it stand between its edges, and the first and the last column between them are such
participants. -/
def TightIn (diagram : Diagram) : Stage → Prop
  | .block left right sections =>
      ∃ before names after,
        diagram.beside left right = before ++ left :: names ++ right :: after ∧
          (∃ first ∈ names.head?, first ∈ participants sections) ∧
          (∃ last ∈ names.getLast?, last ∈ participants sections) ∧
          ∀ name ∈ participants sections, name ∈ names
  | _ => True

/-- A block stands tight among the columns of a roster. -/
def TightBy (roster : Roster) : Stage → Prop
  | .block left right sections =>
      ∃ (number : Nat) (before : List Column) (names : List String) (after : List Column),
        left = (Column.edge number .left).name ∧ right = (Column.edge number .right).name ∧
          roster.beside number = before ++ .edge number .left :: names.map Column.participant ++
            .edge number .right :: after ∧
          (∃ first ∈ names.head?, Needed (walkSections sections) (.participant first)) ∧
          (∃ last ∈ names.getLast?, Needed (walkSections sections) (.participant last)) ∧
          ∀ name, Needed (walkSections sections) (.participant name) → name ∈ names
  | _ => True

end Stage

namespace Column

/-- From the near side, the near edge of a block comes before the far one, and between them stand
participants, the first of whom is used. -/
def Leads (used columns : List Column) (near : Side) (block : Nat) : Prop :=
  edge block near ∈ used ∧
    ∃ (ahead : List Column) (names : List String) (behind : List Column),
      columns.filter (isNeighbour block) =
        ahead ++ edge block near :: names.map participant ++ edge block near.opposite :: behind ∧
      ∃ first ∈ names.head?, participant first ∈ used

/-- If no near edge stands in front of an edge of a block, then it is the near edge itself, and the
next participant behind it is used. -/
theorem Leads.participants_behind {used before behind : List Column} {near side : Side}
    {block : Nat} (leads : Leads used (before ++ edge block side :: behind) near block)
    (distinct : (before ++ edge block side :: behind).Nodup) (clear : edge block near ∉ before) :
    ∃ first more, behind.filterMap participant? = first :: more ∧ participant first ∈ used := by
  obtain ⟨_, ahead, names, further, seen, first, head, firstUsed⟩ := leads
  obtain ⟨others, rfl⟩ := List.head?_eq_some_iff.mp head
  have cut : (before ++ edge block side :: behind).filter (isNeighbour block) =
      before.filter (isNeighbour block) ++
        edge block side :: behind.filter (isNeighbour block) := by
    rw [List.filter_append, List.filter_cons_of_pos (by simp [isNeighbour])]
  have alone : edge block side ∉
      before.filter (isNeighbour block) ++ behind.filter (isNeighbour block) := by
    have distinctCut := distinct.filter (isNeighbour block)
    rw [cut, List.nodup_middle] at distinctCut
    exact (List.nodup_cons.mp distinctCut).1
  obtain ⟨fresh, freshBehind⟩ := not_or.mp (mt List.mem_append.mpr alone)
  rw [cut] at seen
  have sameSide : side = near := by
    by_contra other
    obtain rfl : side = near.opposite := by cases side <;> cases near <;> trivial
    have fronts := ((List.append_cons_inj_of_notMem fresh freshBehind).mp seen).1
    have member : edge block near ∈ before.filter (isNeighbour block) := by
      rw [fronts]
      exact List.mem_append_right _ List.mem_cons_self
    exact clear (List.mem_of_mem_filter member)
  subst sameSide
  -- Behind the near edge, both lists of columns have the same participants.
  rw [List.append_assoc, List.cons_append] at seen
  have same := ((List.append_cons_inj_of_notMem fresh freshBehind).mp seen).2.2
  have listed := congrArg (List.filterMap participant?) same
  rw [filterMap_participant?_filter] at listed
  exact ⟨first, _, listed, firstUsed⟩

/-- Of the part of the columns that begins with the first used one and ends with the last one, the
first participant is used, even where the first used column is the edge of a block. -/
theorem exists_first_participant {used columns before middle after : List Column} {near : Side}
    (split : columns = before ++ middle ++ after) (distinct : columns.Nodup)
    (framed : ∀ side, outer side ∉ columns) (clean : ∀ column ∈ before ++ after, column ∉ used)
    (hit : ∃ column ∈ middle.head?, column ∈ used)
    (leads : ∀ block side, edge block side ∈ used → Leads used columns near block) :
    ∃ first ∈ (middle.filterMap participant?).head?, participant first ∈ used := by
  subst split
  obtain ⟨column, head, columnUsed⟩ := hit
  obtain ⟨rest, rfl⟩ := List.head?_eq_some_iff.mp head
  cases column with
  | outer side => exact absurd (by simp) (framed side)
  | participant name => exact ⟨name, rfl, columnUsed⟩
  | edge block side =>
      have led := leads block side columnUsed
      rw [List.append_assoc, List.cons_append] at led distinct
      have clear : edge block near ∉ before := fun member =>
        clean _ (List.mem_append_left _ member) led.1
      obtain ⟨first, more, listed, firstUsed⟩ := led.participants_behind distinct clear
      have absent : first ∉ after.filterMap participant? := by
        intro member
        obtain ⟨column, inside, same⟩ := List.mem_filterMap.mp member
        rw [participant?_eq_some.mp same] at inside
        exact clean _ (List.mem_append_right _ inside) firstUsed
      have names : (edge block side :: rest).filterMap participant? = rest.filterMap participant? :=
        rfl
      rw [List.filterMap_append] at listed
      rw [names]
      cases found : rest.filterMap participant? with
      | nil =>
          rw [found, List.nil_append] at listed
          rw [listed] at absent
          exact absurd List.mem_cons_self absent
      | cons own others =>
          rw [found, List.cons_append] at listed
          obtain rfl := (List.cons.inj listed).1
          exact ⟨own, rfl, firstUsed⟩

/-- From the right, the last participant comes first. -/
theorem exists_last_participant {used columns before middle after : List Column} {near : Side}
    (split : columns = before ++ middle ++ after) (distinct : columns.Nodup)
    (framed : ∀ side, outer side ∉ columns) (clean : ∀ column ∈ before ++ after, column ∉ used)
    (hit : ∃ column ∈ middle.getLast?, column ∈ used)
    (leads : ∀ block side, edge block side ∈ used → Leads used columns.reverse near block) :
    ∃ last ∈ (middle.filterMap participant?).getLast?, participant last ∈ used := by
  have backwards : columns.reverse = after.reverse ++ middle.reverse ++ before.reverse := by
    simp [split]
  have framedToo : ∀ side, outer side ∉ columns.reverse := fun side member =>
    framed side (List.mem_reverse.mp member)
  have cleanToo : ∀ column ∈ after.reverse ++ before.reverse, column ∉ used := fun column member =>
    clean column (by simpa [or_comm] using member)
  have hitToo : ∃ column ∈ middle.reverse.head?, column ∈ used := by
    rw [List.head?_reverse]
    exact hit
  have found := exists_first_participant backwards (List.nodup_reverse.mpr distinct) framedToo
    cleanToo hitToo leads
  rw [List.filterMap_reverse, List.head?_reverse] at found
  exact found

end Column

namespace Assembly

variable {assembly : Assembly} {frame : Frame} {outer : List Frame}

/-- Every block that has been kept stands tight if it and all blocks inside of it are populated. -/
def Tight (assembly : Assembly) : Prop :=
  ∀ stage ∈ assembly.kept, (∀ nested ∈ stage.walk, nested.isPopulated = true) →
    stage.TightBy assembly.roster

/-- A block that is used in another one leads to one of its participants from either side. -/
theorem leads_of_used (moves : Moves {} assembly) (tight : assembly.Tight)
    (inside : assembly.frames = frame :: outer)
    (populated : ∀ nested ∈ Level.walk ⟨frame.closed, assembly.draft⟩, nested.isPopulated = true)
    {number : Nat} {side : Side} (used : Column.edge number side ∈ assembly.draft.used) :
    Column.Leads assembly.draft.used assembly.roster.inner .left number ∧
      Column.Leads assembly.draft.used assembly.roster.inner.reverse .right number := by
  have accounted := forall_levels_inside (accounted_of_moves moves) inside
  obtain ⟨stage, member, needs⟩ := (accounted _).mp used
  cases stage with
  | block left right sections =>
      have within : (Stage.block left right sections).walk ⊆
          Level.walk ⟨frame.closed, assembly.draft⟩ := by
        rw [← walkSections_sections] at member ⊢
        exact Stage.walk_subset_walkSections _ _ member
      have kept : Stage.block left right sections ∈ assembly.kept :=
        List.mem_filter.mpr ⟨walk_subset_written inside member, rfl⟩
      obtain ⟨block, before, names, after, rfl, rfl, seen, ⟨first, head, firstNeeded⟩,
        ⟨last, tail, lastNeeded⟩, _⟩ :=
          tight _ kept fun nested inner => populated nested (within inner)
      obtain rfl : number = block := by
        rcases Stage.needs_block.mp needs with same | same
        · exact (Column.edge.inj same).1
        · exact (Column.edge.inj same).1
      have edgeUsed (side : Side) : Column.edge number side ∈ assembly.draft.used :=
        (accounted _).mpr ⟨_, member, Stage.needs_block.mpr (by cases side <;> simp)⟩
      have usedInside {column : Column}
          (needed : Stage.Needed (Stage.walkSections sections) column) :
          column ∈ assembly.draft.used := by
        obtain ⟨stage, inner, needs⟩ := needed
        refine (accounted _).mpr ⟨stage, within ?_, needs⟩
        rw [Stage.walk]
        exact List.mem_cons_of_mem _ inner
      constructor
      · exact ⟨edgeUsed .left, before, names, after, seen, first, head, usedInside firstNeeded⟩
      · have backwards : assembly.roster.inner.reverse.filter (Column.isNeighbour number) =
            (assembly.roster.beside number).reverse := List.filter_reverse
        refine ⟨edgeUsed .right, after.reverse, names.reverse, before.reverse, ?_, last, ?_,
          usedInside lastNeeded⟩
        · rw [backwards, seen]
          simp [Side.opposite]
        · rw [List.head?_reverse]
          exact tail
  | _ => exact absurd needs List.not_mem_nil

/-- A block that closes is tight if someone takes part in it and in each block inside of it. -/
theorem tightBy_keep (moves : Moves {} assembly) (tight : assembly.Tight)
    (inside : assembly.frames = frame :: outer)
    (populated : ∀ nested ∈ (frame.block assembly.draft.stages).walk, nested.isPopulated = true) :
    (frame.block assembly.draft.stages).TightBy (assembly.keep frame outer).roster := by
  have accounted := accounted_of_moves moves
  have sound := sound_of_moves moves
  have proper := proper_of_moves moves
  rw [walk_block] at populated
  have inhabited := used_ne_nil_of_populated accounted inside (populated _ List.mem_cons_self)
  have known := mem_inner_of_used sound accounted inside
  have leads {number : Nat} {side : Side} :=
    @leads_of_used _ _ _ moves tight inside
      (fun nested member => populated nested (List.mem_cons_of_mem _ member)) number side
  have needed (column : Column) :
      Stage.Needed (Stage.walkSections (frame.sections assembly.draft.stages)) column ↔
        column ∈ assembly.draft.used := by
    rw [walkSections_sections]
    exact (forall_levels_inside accounted inside column).symm
  obtain ⟨before, middle, after, split, seen, clean, ⟨first, last⟩ | ⟨_, _, unused⟩⟩ :=
    Roster.beside_enclose_eq proper.framed (sound.numbered.notMem_inner inside) assembly.draft.used
  · refine ⟨frame.number, before.filter (Column.isNeighbour frame.number),
      middle.filterMap Column.participant?, after.filter (Column.isNeighbour frame.number),
      rfl, rfl, seen, ?_, ?_, ?_⟩
    · simp only [needed]
      exact Column.exists_first_participant split proper.distinct proper.framed clean first
        fun _ _ used => (leads used).1
    · simp only [needed]
      exact Column.exists_last_participant split proper.distinct proper.framed clean last
        fun _ _ used => (leads used).2
    · intro name used
      rw [needed] at used
      have inner := known _ used
      have outside : Column.participant name ∉ before ++ after := fun member =>
        clean _ member used
      have within : Column.participant name ∈ middle := by
        rw [split] at inner
        simp only [List.mem_append] at inner outside
        tauto
      exact List.mem_filterMap.mpr ⟨_, within, rfl⟩
  · obtain ⟨column, used⟩ := List.exists_mem_of_ne_nil _ inhabited
    exact absurd used (unused column (known column used))

/-- Whatever comes later leaves a block as tight as it was. -/
theorem tightBy_of_move {stage : Stage} (before after : Assembly) (move : Move before after)
    (numbered : before.Numbered) (tight : stage.TightBy before.roster) :
    stage.TightBy after.roster := by
  cases stage with
  | block left right sections =>
      obtain ⟨number, ahead, names, behind, leftEq, rightEq, seen, within⟩ := tight
      have kept : Column.edge number .left ∈ before.roster.inner := by
        have member : Column.edge number .left ∈ before.roster.beside number := by simp [seen]
        exact List.mem_of_mem_filter member
      obtain ⟨more, grown⟩ := beside_prefix_of_move before after move numbered kept
      refine ⟨number, ahead, names, behind ++ more, leftEq, rightEq, ?_, within⟩
      rw [← grown, seen, List.append_assoc, List.cons_append]
  | _ => trivial

/-- Every move keeps the populated blocks tight. -/
theorem tight_of_move (before after : Assembly) (move : Move before after)
    (holds : Moves {} before ∧ before.Tight) : Moves {} after ∧ after.Tight := by
  obtain ⟨moves, tight⟩ := holds
  refine ⟨moves.tail move, ?_⟩
  have sound := sound_of_moves moves
  intro stage member populated
  rcases kept_of_move before after move sound.quiet with same | ⟨frame, outer, inside, rfl, perm⟩
  · rw [same] at member
    exact tightBy_of_move before after move sound.numbered (tight stage member populated)
  · rcases List.mem_cons.mp (perm.mem_iff.mp member) with rfl | old
    · exact tightBy_keep moves tight inside populated
    · exact tightBy_of_move before _ move sound.numbered (tight stage old populated)

/-- In every assembly that a document leads to, the blocks in which someone takes part are tight. -/
theorem tight_of_moves (moves : Moves {} assembly) : assembly.Tight :=
  (moves.keeps tight_of_move ⟨.refl, fun _ member => absurd member List.not_mem_nil⟩).2

end Assembly

namespace Stage

/-- The participants of a block are those whose columns the stages inside of it need. -/
theorem mem_participants {sections : List (Section Stage)} {name : String} :
    name ∈ participants sections ↔
      Needed (walkSections sections) (.participant name) ∧ Column.isEdgeName name = false := by
  rw [participants, List.mem_filter, List.mem_flatMap, Column.isOrdinary, Bool.and_eq_true,
    Bool.not_eq_true', Bool.not_eq_true']
  constructor
  · rintro ⟨⟨stage, member, about⟩, free, ordinary⟩
    exact ⟨⟨stage, member, about, free⟩, ordinary⟩
  · rintro ⟨⟨stage, member, about, free⟩, ordinary⟩
    exact ⟨⟨stage, member, about⟩, free, ordinary⟩

/-- What is tight among the columns of a roster is so in the diagram that shows their names. -/
theorem TightBy.tightIn {stage : Stage} {roster : Roster} {diagram : Diagram}
    (tight : stage.TightBy roster) (columns : diagram.columns = roster.columns.map Column.name)
    (plain : ∀ name ∈ roster.participants, Column.isEdgeName name = false) :
    stage.TightIn diagram := by
  cases stage with
  | block left right sections =>
      obtain ⟨number, before, names, after, rfl, rfl, seen, ⟨first, head, firstNeeded⟩,
        ⟨last, tail, lastNeeded⟩, all⟩ := tight
      have ordinary (name : String) (member : name ∈ names) : Column.isEdgeName name = false := by
        have column : Column.participant name ∈ roster.beside number := by simp [seen, member]
        exact plain name (Roster.mem_participants.mpr (List.mem_of_mem_filter column))
      refine ⟨"[" :: before.map Column.name, names, after.map Column.name ++ ["]"], ?_,
        ⟨first, head, ?_⟩, ⟨last, tail, ?_⟩, ?_⟩
      · rw [Diagram.beside, columns, Roster.filter_isBeside plain, seen]
        simp [Column.name, Function.comp_def]
      · exact mem_participants.mpr ⟨firstNeeded, ordinary first (List.mem_of_mem_head? head)⟩
      · exact mem_participants.mpr ⟨lastNeeded, ordinary last (List.mem_of_mem_getLast? tail)⟩
      · exact fun name member => all name (mem_participants.mp member).1
  | _ => trivial

end Stage

/-- If no participant of a document is named like an edge of a block, then each block of its diagram
stands tight, as long as a participant takes part in it and in all blocks inside of it. -/
theorem tightIn_assemble {document : Document} {diagram : Diagram}
    (assembled : document.assemble = .ok diagram)
    (plain : ∀ name ∈ document.mentioned, Column.isEdgeName name = false) :
    diagram.columns.Nodup ∧
      ∀ stage ∈ Stage.walkAll diagram.stages,
        (∀ nested ∈ stage.walk, nested.isPopulated = true) → stage.TightIn diagram := by
  obtain ⟨final, moves, lists, columns, written⟩ := Assembly.final_of_assemble assembled
  have ordinary := lists.plain plain
  constructor
  · rw [columns]
    exact (Assembly.proper_of_moves moves).nodup_names ordinary
  · intro stage member populated
    cases flat : stage.isBlock with
    | true =>
        rw [written] at member
        have kept : stage ∈ final.kept := List.mem_filter.mpr ⟨member, flat⟩
        exact (Assembly.tight_of_moves moves stage kept populated).tightIn columns ordinary
    | false =>
        cases stage with
        | block left right sections => contradiction
        | _ => trivial

/-- Two blocks overlap in this document, one of them has a block inside, and the last participant is
mentioned behind both. -/
def Document.relay : Document where
  header := {}
  statements :=
    [ ⟨.message { name := "A" } { name := "B" } .plain "", .origin⟩,
      ⟨.openBlock .alternative "free", .origin⟩,
      ⟨.message { name := "B" } { name := "C" } .plain "", .origin⟩,
      ⟨.closeBlock, .origin⟩,
      ⟨.openBlock .loop "", .origin⟩,
      ⟨.note .over .note [{ name := "C" }] "wait", .origin⟩,
      ⟨.openBlock .loop "", .origin⟩,
      ⟨.message { name := "C" } { name := "D" } .plain "", .origin⟩,
      ⟨.closeBlock, .origin⟩,
      ⟨.closeBlock, .origin⟩,
      ⟨.message { name := "E" } { name := "A" } .plain "", .origin⟩ ]

theorem tightIn_relay :
    ∃ diagram, Document.relay.assemble = .ok diagram ∧
      (∀ name ∈ Document.relay.mentioned, Column.isEdgeName name = false) ∧
      (Stage.walkAll diagram.stages).countP Stage.isBlock = 3 ∧
      diagram.columns = ["[", "A", "__BLOCK0[", "B", "__BLOCK1[", "__BLOCK2[", "C", "__BLOCK0]",
        "D", "__BLOCK2]", "__BLOCK1]", "E", "]"] ∧
      diagram.columns.Nodup ∧ ∀ stage ∈ Stage.walkAll diagram.stages, stage.TightIn diagram := by
  have plain : ∀ name ∈ Document.relay.mentioned, Column.isEdgeName name = false := by decide
  have checked : ∃ diagram, Document.relay.assemble = .ok diagram ∧
      (Stage.walkAll diagram.stages).countP Stage.isBlock = 3 ∧
      diagram.columns = ["[", "A", "__BLOCK0[", "B", "__BLOCK1[", "__BLOCK2[", "C", "__BLOCK0]",
        "D", "__BLOCK2]", "__BLOCK1]", "E", "]"] ∧
      ((Stage.walkAll diagram.stages).all fun stage => stage.walk.all Stage.isPopulated) = true :=
    ⟨_, rfl, rfl, rfl, rfl⟩
  obtain ⟨diagram, assembled, blocks, columns, all⟩ := checked
  have populated : ∀ stage ∈ Stage.walkAll diagram.stages,
      ∀ nested ∈ stage.walk, nested.isPopulated = true := fun stage member =>
    List.all_eq_true.mp (List.all_eq_true.mp all stage member)
  obtain ⟨once, tight⟩ := tightIn_assemble assembled plain
  exact ⟨diagram, assembled, plain, blocks, columns, once, fun stage member =>
    tight stage member (populated stage member)⟩

end Lifeline
