import Lifeline.Proofs.Invariants

/-! A diagram lists whom its document mentions and the edges of the blocks that it keeps. -/

namespace Lifeline

/-- These names are mentioned by a statement. -/
def Statement.mentioned : Statement → List String
  | .define mentions => mentions.map Mention.name
  | .enter mentions _ => mentions.map Mention.name
  | .leave mentions _ => mentions.map Mention.name
  | .message sender receiver _ _ => [sender.name, receiver.name]
  | .note _ _ mentions _ => mentions.map Mention.name
  | .mark _ => []
  | .jump _ => []
  | .openBlock _ _ => []
  | .splitBlock _ _ => []
  | .closeBlock => []

/-- These are the names in all statements, in their order. -/
def Document.mentioned (document : Document) : List String :=
  document.statements.flatMap fun located => located.statement.mentioned

namespace Column

/-- These are the participants among the names, each once, in the order in which they come first. -/
def listed (names : List String) : List String :=
  (names.filter fun name => !isReserved name).eraseDups

/-- A name is listed if it is mentioned and no bracket. -/
theorem mem_listed {names : List String} {name : String} :
    name ∈ listed names ↔ name ∈ names ∧ isReserved name = false := by
  simp [listed, List.mem_eraseDups]

/-- A name is listed behind the others when it is mentioned for the first time. -/
theorem listed_append_singleton (names : List String) (name : String) :
    listed (names ++ [name]) =
      if isReserved name = true ∨ name ∈ listed names then listed names
      else listed names ++ [name] := by
  have split : listed (names ++ [name]) = listed names ++
      (([name].filter fun name => !isReserved name).removeAll
        (names.filter fun name => !isReserved name)).eraseDups := by
    rw [listed, List.filter_append, List.eraseDups_append, ← listed]
  rw [split]
  by_cases old : isReserved name = true ∨ name ∈ listed names
  · rw [if_pos old]
    rcases old with reserved | known
    · simp [reserved]
    · have facts := mem_listed.mp known
      simp [facts, List.cons_removeAll]
  · obtain ⟨free, unknown⟩ := not_or.mp old
    have fresh : name ∉ names := fun member =>
      unknown (mem_listed.mpr ⟨member, Bool.eq_false_iff.mpr free⟩)
    rw [if_neg old]
    simp [free, fresh, List.cons_removeAll, List.eraseDups_cons]

/-- The names of outer columns are not listed. -/
theorem listed_append_of_reserved {names more : List String}
    (reserved : ∀ name ∈ more, isReserved name = true) :
    listed (names ++ more) = listed names := by
  have none : (more.filter fun name => !isReserved name) = [] := by
    simpa [List.filter_eq_nil_iff] using reserved
  rw [listed, List.filter_append, none, List.append_nil, ← listed]

end Column

namespace Roster

/-- Registration goes on with the listing of participants. -/
theorem participants_registerAll {roster : Roster} {earlier : List String}
    (same : roster.participants = Column.listed earlier) (names : List String) :
    (roster.registerAll names).participants = Column.listed (earlier ++ names) := by
  induction names generalizing roster earlier with
  | nil => rw [List.append_nil, ← same]; rfl
  | cons name rest ih =>
      have once : (roster.register name).participants = Column.listed (earlier ++ [name]) := by
        rw [Column.listed_append_singleton, ← same, participants, inner_register]
        split
        · rfl
        · rw [List.filterMap_append]
          rfl
      rw [← List.singleton_append, ← List.append_assoc]
      exact ih once

end Roster

namespace Stage

/-- A mark and a jump have no edges. -/
theorem edges_of_not_isDrawn {stage : Stage} (quiet : stage.isDrawn = false) :
    stage.edges = [] := by
  cases stage <;> first | rfl | contradiction

/-- A message and a note have no edges. -/
theorem edges_of_speaks {stage : Stage} (spoken : stage.speaks = true) : stage.edges = [] := by
  cases stage <;> first | rfl | contradiction

/-- A mark and a jump speak of nobody. -/
theorem about_of_not_isDrawn {stage : Stage} (quiet : stage.isDrawn = false) :
    stage.about = [] := by
  cases stage <;> first | rfl | contradiction

end Stage

namespace Change

@[simp] theorem about_stage (change : Change) (names : List String) (mode : Terminator) :
    (change.stage names mode).about = names := by
  cases change <;> rfl

@[simp] theorem edges_stage (change : Change) (names : List String) (mode : Terminator) :
    (change.stage names mode).edges = [] := by
  cases change <;> rfl

namespace Extends

variable {change : Change} {names : List String} {mode : Terminator} {before after : List Stage}

/-- A change of participants adds no edges. -/
theorem edges (extended : change.Extends names mode before after) :
    after.flatMap Stage.edges = before.flatMap Stage.edges := by
  rcases extended with rfl | ⟨older, earlier, rfl, rfl⟩
  · simp
  · simp

/-- An extended list of stages is about the new names and those it has been about before. -/
theorem about (extended : change.Extends names mode before after) {stage : Stage}
    (written : stage ∈ after) {name : String} (member : name ∈ stage.about) :
    name ∈ names ∨ ∃ old ∈ before, name ∈ old.about := by
  rcases extended with rfl | ⟨older, earlier, rfl, rfl⟩
  · rcases List.mem_append.mp written with old | new
    · exact Or.inr ⟨stage, old, member⟩
    · rw [List.mem_singleton.mp new, about_stage] at member
      exact Or.inl member
  · rcases List.mem_append.mp written with old | new
    · exact Or.inr ⟨stage, List.mem_append_left _ old, member⟩
    · rw [List.mem_singleton.mp new, about_stage] at member
      rcases Draft.mem_merge.mp member with first | second
      · refine Or.inr ⟨change.stage earlier mode, List.mem_append_right _ List.mem_cons_self, ?_⟩
        rw [about_stage]
        exact first
      · exact Or.inl second

end Extends

end Change

namespace Assembly

variable {assembly next : Assembly}

/-- The participants of an assembly are those among the names that have been mentioned. -/
def Lists (assembly : Assembly) (names : List String) : Prop :=
  assembly.roster.participants = Column.listed names

/-- The names that are registered join the list. -/
theorem Lists.register {earlier : List String} (lists : assembly.Lists earlier)
    (names : List String) : (assembly.register names).Lists (earlier ++ names) :=
  Roster.participants_registerAll lists names

/-- The list depends on the inner columns only. -/
theorem Lists.congr {names : List String} (lists : assembly.Lists names)
    (same : next.roster.inner = assembly.roster.inner) : next.Lists names := by
  rw [Lists, Roster.participants, same]
  exact lists

/-- Every statement adds the names that it mentions to the list. -/
theorem lists_perform {earlier : List String} {origin : Origin} {statement : Statement}
    (lists : assembly.Lists earlier) (performed : assembly.perform origin statement = .ok next) :
    next.Lists (earlier ++ statement.mentioned) := by
  cases statement with
  | define mentions =>
      obtain ⟨_, rfl⟩ := declare_eq_ok performed
      exact lists.register _
  | enter mentions mode =>
      obtain ⟨middle, declared, rfl⟩ := except_map_eq_ok.mp performed
      obtain ⟨_, rfl⟩ := declare_eq_ok declared
      exact (lists.register _).congr (inner_change _ _ _ _)
  | leave mentions mode =>
      obtain ⟨middle, declared, rfl⟩ := except_map_eq_ok.mp performed
      obtain ⟨_, rfl⟩ := declare_eq_ok declared
      exact (lists.register _).congr (inner_change _ _ _ _)
  | message sender receiver arrow label =>
      obtain rfl := Except.ok.inj performed
      refine (lists.register [sender.name, receiver.name]).congr ?_
      rw [message, inner_change]
      exact inner_change _ _ _ _
  | note position style mentions label =>
      obtain rfl := Except.ok.inj performed
      have placed : (assembly.note position style mentions label).Lists (earlier ++
          if mentions.isEmpty then position.outerNames else mentions.map Mention.name) :=
        (lists.register _).congr (inner_change _ _ _ _)
      cases mentions with
      | nil =>
          have outer : ∀ name ∈ position.outerNames, Column.isReserved name = true := by
            cases position <;> decide
          rw [Lists] at placed ⊢
          rw [Statement.mentioned, List.map_nil, List.append_nil, placed]
          exact Column.listed_append_of_reserved outer
      | cons mention rest => exact placed
  | mark name =>
      obtain rfl := Except.ok.inj performed
      rw [Statement.mentioned, List.append_nil]
      exact lists
  | jump target =>
      rw [jump_eq_ok performed, Statement.mentioned, List.append_nil]
      exact lists
  | openBlock mode label =>
      obtain rfl := Except.ok.inj performed
      rw [Statement.mentioned, List.append_nil]
      exact lists
  | splitBlock mode label =>
      obtain ⟨frame, outer, _, rfl⟩ := splitBlock_eq_ok performed
      rw [Statement.mentioned, List.append_nil]
      exact lists
  | closeBlock =>
      rw [Statement.mentioned, List.append_nil]
      obtain ⟨frame, outer, _, ⟨_, rfl⟩ | ⟨_, rfl⟩⟩ := closeBlock_eq_ok performed
      · exact (assembly.roster.participants_enclose _ _).trans lists
      · exact lists

/-- A run adds the names that its statements mention to the list. -/
theorem lists_run {earlier : List String} {statements : List Located} {last : Assembly}
    (lists : assembly.Lists earlier) (ran : assembly.run statements = .ok last) :
    last.Lists (earlier ++ statements.flatMap fun located => located.statement.mentioned) := by
  induction statements generalizing assembly earlier with
  | nil =>
      obtain rfl := Except.ok.inj ran
      rw [List.flatMap_nil, List.append_nil]
      exact lists
  | cons located rest ih =>
      rw [run_cons] at ran
      obtain ⟨middle, taken, ran⟩ := except_bind_eq_ok.mp ran
      obtain ⟨performed, accepted, rfl⟩ := except_map_eq_ok.mp taken
      have once : Lists { performed with taken := assembly.taken + 1 }
          (earlier ++ located.statement.mentioned) :=
        (lists_perform lists accepted).congr rfl
      rw [List.flatMap_cons, ← List.append_assoc]
      exact ih once ran

/-- A document lists the participants that it mentions. -/
theorem lists_document {document : Document} {last : Assembly}
    (ran : Assembly.run {} document.statements = .ok last) : last.Lists document.mentioned := by
  have start : Lists {} [] := rfl
  exact lists_run start ran

/-- These edges belong to the blocks that are open or have been kept. -/
def claimed (assembly : Assembly) : List (Nat × Side) :=
  (assembly.frames.flatMap fun frame => [(frame.number, .left), (frame.number, .right)]) ++
    assembly.roster.edges

/-- Every edge is claimed once, by a block that has been opened already. -/
def Numbered (assembly : Assembly) : Prop :=
  assembly.claimed.Nodup ∧ ∀ edge ∈ assembly.claimed, edge.1 < assembly.blocks

/-- Numbers depend on the claimed edges and on the count of blocks only. -/
theorem Numbered.congr (numbered : assembly.Numbered) (claimed : next.claimed = assembly.claimed)
    (blocks : next.blocks = assembly.blocks) : next.Numbered := by
  rw [Numbered, claimed, blocks]
  exact numbered

/-- No move claims an edge twice, or an edge of a block that is still to be opened. -/
theorem numbered_of_move (before after : Assembly) (move : Move before after)
    (numbered : before.Numbered) : after.Numbered := by
  cases move with
  | register names =>
      refine numbered.congr ?_ rfl
      rw [claimed, claimed, register, Roster.edges_registerAll]
  | change change names mode known =>
      refine numbered.congr ?_ (before.blocks_change change names mode)
      rw [claimed, claimed, frames_change, Roster.edges, inner_change, ← Roster.edges]
  | speak stage spoken known present => exact numbered
  | steer stage silent => exact numbered
  | record markers taken => exact numbered
  | openBlock origin mode label =>
      obtain ⟨distinct, below⟩ := numbered
      have grown : (before.openBlock origin mode label).claimed =
          (before.blocks, .left) :: (before.blocks, .right) :: before.claimed := rfl
      have fresh (side : Side) : (before.blocks, side) ∉ before.claimed := fun member =>
        absurd (below _ member) (Nat.lt_irrefl _)
      rw [Numbered, grown]
      constructor
      · simp [fresh, distinct]
      · intro edge member
        have next : (before.openBlock origin mode label).blocks = before.blocks + 1 := rfl
        rw [next]
        rcases List.mem_cons.mp member with rfl | member
        · exact Nat.lt_succ_self _
        · rcases List.mem_cons.mp member with rfl | member
          · exact Nat.lt_succ_self _
          · exact Nat.lt_succ_of_lt (below edge member)
  | divide frame outer mode label inside =>
      refine numbered.congr ?_ rfl
      rw [claimed, claimed, inside]
      rfl
  | keep frame outer inside live =>
      -- The edges of the block are no longer claimed by its frame but by the roster.
      have moved : (before.keep frame outer).claimed.Perm before.claimed := by
        have enclosed := before.roster.perm_edges_enclose frame.number before.draft.used
        rw [claimed, claimed, inside, List.flatMap_cons, List.append_assoc]
        exact (enclosed.append_left _).trans
          (List.perm_append_comm_assoc _ [(frame.number, Side.left), (frame.number, Side.right)] _)
      exact ⟨moved.nodup_iff.mpr numbered.1, fun edge member =>
        numbered.2 edge (moved.mem_iff.mp member)⟩
  | drop frame outer inside dead =>
      have left : (before.drop frame outer).claimed.Sublist before.claimed := by
        rw [claimed, claimed, inside, List.flatMap_cons, List.append_assoc]
        exact List.sublist_append_right _ _
      exact ⟨numbered.1.sublist left, fun edge member => numbered.2 edge (left.mem member)⟩

/-- The columns have the edges of the blocks that have been written. -/
def Edged (assembly : Assembly) : Prop :=
  (assembly.roster.edges.map fun edge => (Column.edge edge.1 edge.2).name).Perm
    (assembly.written.flatMap Stage.edges)

/-- Every move keeps the edges among the columns those of the blocks that have been written. -/
theorem edged_of_move (before after : Assembly) (move : Move before after) (quiet : before.Quiet)
    (edged : before.Edged) : after.Edged := by
  cases move with
  | register names =>
      rw [Edged, register, Roster.edges_registerAll]
      exact edged
  | change change names mode known =>
      rcases before.written_change change names mode with ⟨_, same⟩ | ⟨_, extended⟩
      · rw [same]
        exact edged
      · rw [Edged, extended.edges, Roster.edges, inner_change]
        exact edged
  | speak stage spoken known present =>
      have used : (before.use stage.about).Edged := by
        rw [Edged, written_use]
        exact edged
      rw [Edged, written_place _ (Stage.walk_of_speaks spoken), List.flatMap_append,
        List.flatMap_singleton, Stage.edges_of_speaks spoken, List.append_nil]
      exact used
  | steer stage silent =>
      rw [Edged, written_place _ (Stage.walk_of_not_isDrawn silent), List.flatMap_append,
        List.flatMap_singleton, Stage.edges_of_not_isDrawn silent, List.append_nil]
      exact edged
  | record markers taken => exact edged
  | openBlock origin mode label =>
      rw [Edged, written_openBlock]
      exact edged
  | divide frame outer mode label inside =>
      rw [Edged, written_divide inside]
      exact edged
  | keep frame outer inside live =>
      rw [Edged, written_inside inside, List.flatMap_append] at edged
      rw [Edged, written_keep, List.flatMap_append, List.flatMap_cons]
      have enclosed := (before.roster.perm_edges_enclose frame.number before.draft.used).map
        fun edge => (Column.edge edge.1 edge.2).name
      have framed := edged.append_left
        [(Column.edge frame.number .left).name, (Column.edge frame.number .right).name]
      exact enclosed.trans (framed.trans (List.perm_append_comm_assoc _ _ _))
  | drop frame outer inside dead =>
      -- Nothing in the block is drawn, and so no block that was kept is lost with it.
      rw [Edged, written_inside inside, List.flatMap_append] at edged
      have silent := quiet.inside inside dead
      have none : (Level.walk ⟨frame.closed, before.draft⟩).flatMap Stage.edges = [] :=
        List.flatMap_eq_nil_iff.mpr fun stage member =>
          Stage.edges_of_not_isDrawn (silent stage member)
      rw [none, List.append_nil] at edged
      exact edged

/-- Everyone whom a stage is about has a column. -/
def Informed (assembly : Assembly) : Prop :=
  ∀ stage ∈ assembly.written, ∀ name ∈ stage.about,
    Column.named name ∈ assembly.roster.columns

/-- Every move keeps a column for everyone of whom a stage speaks. -/
theorem informed_of_move (before after : Assembly) (move : Move before after)
    (known : before.Known) (informed : before.Informed) : after.Informed := by
  cases move with
  | register names =>
      intro stage written name member
      exact Roster.mem_columns_registerAll names (informed stage written name member)
  | change change names mode listed =>
      rcases before.written_change change names mode with ⟨_, same⟩ | ⟨_, extended⟩
      · rw [same]
        exact informed
      · intro stage written name member
        rw [columns_change]
        rcases extended.about written member with new | ⟨old, earlier, inside⟩
        · cases change with
          | enter => exact listed rfl name (Roster.mem_changeable_enter.mp new).1
          | leave => exact known.leaving names name new
        · exact informed old earlier name inside
  | speak stage spoken listed present =>
      intro other written name member
      rw [written_place _ (Stage.walk_of_speaks spoken), written_use] at written
      rcases List.mem_append.mp written with old | new
      · exact informed other old name member
      · rw [List.mem_singleton.mp new] at member
        exact listed name member
  | steer stage silent =>
      intro other written name member
      rw [written_place _ (Stage.walk_of_not_isDrawn silent)] at written
      rcases List.mem_append.mp written with old | new
      · exact informed other old name member
      · rw [List.mem_singleton.mp new, Stage.about_of_not_isDrawn silent] at member
        exact absurd member List.not_mem_nil
  | record markers taken => exact informed
  | openBlock origin mode label =>
      rw [Informed, written_openBlock]
      exact informed
  | divide frame outer mode label inside =>
      rw [Informed, written_divide inside]
      exact informed
  | keep frame outer inside live =>
      intro stage written name member
      rw [Informed, written_inside inside] at informed
      rw [written_keep] at written
      have column : Column.named name ∈ before.roster.columns := by
        rcases List.mem_append.mp written with around | within
        · exact informed stage (List.mem_append_left _ around) name member
        · rcases List.mem_cons.mp within with rfl | within
          · exact absurd member List.not_mem_nil
          · exact informed stage (List.mem_append_right _ within) name member
      exact Roster.mem_columns_of_inner (fun _ => Roster.mem_inner_enclose _ _) column
  | drop frame outer inside dead =>
      rw [Informed, written_inside inside] at informed
      intro stage written name member
      exact informed stage (List.mem_append_left _ written) name member

/-- The outer columns frame the inner ones and are not among them. -/
def Framed (assembly : Assembly) : Prop := ∀ side, Column.outer side ∉ assembly.roster.inner

/-- No move puts an outer column among the inner ones. -/
theorem framed_of_move (before after : Assembly) (move : Move before after)
    (framed : before.Framed) : after.Framed := by
  cases move with
  | register names => exact fun side => Roster.outer_not_mem_registerAll names (framed side)
  | change change names mode known =>
      rw [Framed, inner_change]
      exact framed
  | speak stage spoken known present => exact framed
  | steer stage silent => exact framed
  | record markers taken => exact framed
  | openBlock origin mode label => exact framed
  | divide frame outer mode label inside => exact framed
  | keep frame outer inside live =>
      intro side member
      have grown := before.roster.perm_enclose frame.number before.draft.used
      simpa [framed side] using grown.mem_iff.mp member
  | drop frame outer inside dead => exact framed

/-- These facts are kept together, since those on stages rest on those on levels and on who is
visible. -/
structure Sound (assembly : Assembly) : Prop where
  quiet : assembly.Quiet
  known : assembly.Known
  numbered : assembly.Numbered
  edged : assembly.Edged
  informed : assembly.Informed
  framed : assembly.Framed

/-- Every move keeps an assembly sound. -/
theorem sound_of_move (before after : Assembly) (move : Move before after)
    (sound : before.Sound) : after.Sound where
  quiet := quiet_of_move before after move sound.quiet
  known := known_of_move before after move sound.known
  numbered := numbered_of_move before after move sound.numbered
  edged := edged_of_move before after move sound.quiet sound.edged
  informed := informed_of_move before after move sound.known sound.informed
  framed := framed_of_move before after move sound.framed

/-- Every assembly that a document leads to is sound. -/
theorem sound_of_moves (moves : Moves {} assembly) : assembly.Sound := by
  refine moves.keeps sound_of_move
    { quiet := quiet_of_moves .refl
      known := known_of_moves .refl
      numbered := ⟨List.nodup_nil, fun _ member => absurd member List.not_mem_nil⟩
      edged := List.Perm.refl _
      informed := fun _ written => absurd written List.not_mem_nil
      framed := fun _ => List.not_mem_nil }

end Assembly

/-- The listing of a diagram has the participants with the given names in their order between the
outer columns, and the edges of all its blocks among them. -/
structure Diagram.Listing (diagram : Diagram) (names : List String) : Prop where
  framed : ∃ inner, diagram.columns = "[" :: inner ++ ["]"]
  participants : diagram.columns.filter (fun name => !Column.isEdgeName name) =
    "[" :: names ++ ["]"]
  edges : (diagram.columns.filter Column.isEdgeName).Perm
    ((Stage.walkAll diagram.stages).flatMap Stage.edges)
  once : (diagram.columns.filter Column.isEdgeName).Nodup
  complete : ∀ stage ∈ Stage.walkAll diagram.stages, ∀ name ∈ stage.about ++ stage.edges,
    name ∈ diagram.columns

namespace Column

/-- Edges are told apart from participants by their names as long as no participant is named like an
edge. -/
theorem filter_names {columns : List Column} (framed : ∀ side, outer side ∉ columns)
    (plain : ∀ name ∈ columns.filterMap participant?, isEdgeName name = false) :
    (columns.map name).filter (fun name => !isEdgeName name) =
        columns.filterMap participant? ∧
      (columns.map name).filter isEdgeName =
        (columns.filterMap edge?).map fun edge => (Column.edge edge.1 edge.2).name := by
  induction columns with
  | nil => exact ⟨rfl, rfl⟩
  | cons column rest ih =>
      have framedRest : ∀ side, outer side ∉ rest := fun side member =>
        framed side (List.mem_cons_of_mem _ member)
      cases column with
      | outer side => exact absurd List.mem_cons_self (framed side)
      | participant own =>
          have grown : (participant own :: rest).filterMap participant? =
              own :: rest.filterMap participant? := rfl
          have same : (participant own :: rest).filterMap edge? = rest.filterMap edge? := rfl
          rw [grown] at plain
          have ordinary : isEdgeName own = false := plain own List.mem_cons_self
          obtain ⟨names, edges⟩ := ih framedRest fun other member =>
            plain other (List.mem_cons_of_mem own member)
          rw [grown, same, List.map_cons, name, List.filter_cons_of_pos (by simp [ordinary]),
            List.filter_cons_of_neg (by simp [ordinary]), names, edges]
          exact ⟨rfl, rfl⟩
      | edge block side =>
          have same : (edge block side :: rest).filterMap participant? =
              rest.filterMap participant? := rfl
          have grown : (edge block side :: rest).filterMap edge? =
              (block, side) :: rest.filterMap edge? := rfl
          rw [same] at plain
          have special := isEdgeName_name_edge block side
          obtain ⟨names, edges⟩ := ih framedRest plain
          rw [same, grown, List.map_cons, List.filter_cons_of_neg (by simp [special]),
            List.filter_cons_of_pos special, names, edges]
          exact ⟨rfl, rfl⟩

end Column

/-- If no participant of a document is named like the edge of a block, then its diagram lists
exactly the participants that the document mentions, also in blocks that are dropped, and the edges
of exactly the blocks that are kept. -/
theorem listing_assemble {document : Document} {diagram : Diagram}
    (assembled : document.assemble = .ok diagram)
    (plain : ∀ name ∈ document.mentioned, Column.isEdgeName name = false) :
    diagram.Listing (Column.listed document.mentioned) := by
  obtain ⟨last, ran, closed, rfl⟩ := Assembly.assemble_eq_ok assembled
  have ended : Assembly.Moves {} (last.ended document.header) :=
    (Assembly.moves_run ran).tail (.change last .leave _ _ (by simp))
  have sound := Assembly.sound_of_moves ended
  have lists : (last.ended document.header).roster.participants =
      Column.listed document.mentioned := by
    have start : Assembly.Lists {} [] := rfl
    exact (Assembly.lists_run start ran).congr (Assembly.inner_change _ _ _ _)
  have ordinary : ∀ name ∈ (last.ended document.header).roster.participants,
      Column.isEdgeName name = false := by
    intro name member
    rw [lists] at member
    exact plain name (Column.mem_listed.mp member).1
  have written : (last.ended document.header).written =
      Stage.walkAll (last.ended document.header).draft.stages :=
    Assembly.written_of_frames_eq_nil ((last.frames_change _ _ _).trans closed)
  obtain ⟨names, edges⟩ := Column.filter_names sound.framed ordinary
  have columns := (last.ended document.header).roster.map_name_columns
  have special : ((last.ended document.header).roster.columns.map Column.name).filter
      Column.isEdgeName = (last.ended document.header).roster.edges.map fun edge =>
        (Column.edge edge.1 edge.2).name := by
    rw [columns, List.filter_append, List.filter_cons_of_neg (by decide), edges]
    exact List.append_nil _
  have participants : ((last.ended document.header).roster.columns.map Column.name).filter
      (fun name => !Column.isEdgeName name) =
        "[" :: (last.ended document.header).roster.participants ++ ["]"] := by
    rw [columns, List.filter_append, List.filter_cons_of_pos (by decide), names]
    rfl
  have distinct : (last.ended document.header).roster.edges.Nodup :=
    (List.nodup_append'.mp sound.numbered.1).2.1
  exact
    { framed := ⟨_, columns⟩
      participants := by rw [participants, lists]
      edges := by
        rw [special, ← written]
        exact sound.edged
      once := by
        rw [special]
        exact distinct.map fun _ _ same => Column.name_edge_injective same
      complete := by
        intro stage member name inside
        rw [← written] at member
        rcases List.mem_append.mp inside with about | edge
        · have column := sound.informed stage member name about
          exact List.mem_map.mpr ⟨_, column, Column.name_named name⟩
        · have kept := sound.edged.mem_iff.mpr (List.mem_flatMap.mpr ⟨stage, member, edge⟩)
          rw [← special] at kept
          exact (List.mem_filter.mp kept).1 }

theorem listing_tour :
    ∃ diagram, Document.tour.assemble = .ok diagram ∧
      (∀ name ∈ Document.tour.mentioned, Column.isEdgeName name = false) ∧
      diagram.Listing (Column.listed Document.tour.mentioned) := by
  have assembled : ∃ diagram, Document.tour.assemble = .ok diagram := ⟨_, rfl⟩
  have plain : ∀ name ∈ Document.tour.mentioned, Column.isEdgeName name = false := by decide
  obtain ⟨diagram, assembled⟩ := assembled
  exact ⟨diagram, assembled, plain, listing_assemble assembled plain⟩

end Lifeline
