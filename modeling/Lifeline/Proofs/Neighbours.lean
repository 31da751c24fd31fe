import Lifeline.Proofs.Enclosure

/-! A block keeps its place among the participants once it has been closed. -/

namespace Lifeline

namespace Column

/-- Between columns under these names, only the edges of other blocks are left out. -/
def isBeside (left right name : String) : Bool :=
  !isEdgeName name || name == left || name == right

/-- The neighbours of a block are all columns but the edges of other blocks. -/
def isNeighbour (number : Nat) : Column → Bool
  | .edge block _ => block == number
  | _ => true

/-- Participants are told from edges by their names as long as none is named like an edge. -/
theorem isBeside_name {number : Nat} {column : Column}
    (plain : ∀ name, column = .participant name → isEdgeName name = false) :
    isBeside (edge number .left).name (edge number .right).name column.name =
      column.isNeighbour number := by
  cases column with
  | outer side =>
      have ordinary : isEdgeName (outer side).name = false := by cases side <;> decide
      rw [isBeside, ordinary]
      rfl
  | participant name =>
      have ordinary : isEdgeName (participant name).name = false := plain name rfl
      rw [isBeside, ordinary]
      rfl
  | edge block side =>
      have same (other : Side) : (edge block side).name = (edge number other).name ↔
          block = number ∧ side = other := by
        constructor
        · intro names
          exact Prod.mk.inj (@name_edge_injective (block, side) (number, other) names)
        · rintro ⟨rfl, rfl⟩
          rfl
      rw [isBeside, isEdgeName_name_edge, isNeighbour, Bool.eq_iff_iff]
      cases side <;> simp [same]

variable {columns : List Column} {number : Nat}

/-- The participants are all among the neighbours. -/
theorem filterMap_participant?_filter (columns : List Column) (number : Nat) :
    (columns.filter (isNeighbour number)).filterMap participant? =
      columns.filterMap participant? := by
  rw [List.filterMap_filter]
  congr 1
  funext column
  cases column with
  | edge block side => simp [participant?]
  | _ => rfl

/-- Where a block has no edges, its neighbours are the participants. -/
theorem filter_isNeighbour (framed : ∀ side, outer side ∉ columns)
    (absent : ∀ side, edge number side ∉ columns) :
    columns.filter (isNeighbour number) = (columns.filterMap participant?).map participant := by
  induction columns with
  | nil => rfl
  | cons column rest ih =>
      have framedRest : ∀ side, outer side ∉ rest := fun side member =>
        framed side (List.mem_cons_of_mem _ member)
      have absentRest : ∀ side, edge number side ∉ rest := fun side member =>
        absent side (List.mem_cons_of_mem _ member)
      have later := ih framedRest absentRest
      cases column with
      | outer side => exact absurd List.mem_cons_self (framed side)
      | participant name =>
          rw [List.filter_cons_of_pos rfl, later]
          rfl
      | edge block side =>
          have other : ¬isNeighbour number (edge block side) = true := by
            rw [isNeighbour, beq_iff_eq]
            rintro rfl
            exact absent side List.mem_cons_self
          rw [List.filter_cons_of_neg other, later]
          rfl

end Column

/-- The edges of all blocks but one are left out of the columns. -/
def Diagram.beside (diagram : Diagram) (left right : String) : List String :=
  diagram.columns.filter (Column.isBeside left right)

namespace Roster

variable {roster : Roster}

/-- These are the participants of a roster and the edges of one block. -/
def beside (roster : Roster) (number : Nat) : List Column :=
  roster.inner.filter (Column.isNeighbour number)

/-- The names beside a block are those of the columns beside it. -/
theorem filter_isBeside (plain : ∀ name ∈ roster.participants, Column.isEdgeName name = false)
    (number : Nat) :
    (roster.columns.map Column.name).filter (Column.isBeside (Column.edge number .left).name
        (Column.edge number .right).name) =
      "[" :: (roster.beside number).map Column.name ++ ["]"] := by
  have same : ∀ column ∈ roster.columns,
      (Column.isBeside (Column.edge number .left).name (Column.edge number .right).name ∘
        Column.name) column = column.isNeighbour number := by
    intro column member
    apply Column.isBeside_name
    rintro name rfl
    exact plain name (mem_participants.mpr (participant_mem_columns.mp member))
  rw [List.filter_map, List.filter_congr same, columns, List.filter_append,
    List.filter_cons_of_pos rfl, List.filter_cons_of_pos rfl, List.map_append]
  rfl

/-- Where no participant is named like an edge, all columns have different names. -/
theorem Proper.nodup_names (proper : roster.Proper)
    (plain : ∀ name ∈ roster.participants, Column.isEdgeName name = false) :
    (roster.columns.map Column.name).Nodup := by
  rw [proper.nodup_names_iff]
  intro edge _ participant
  have ordinary := plain _ participant
  rw [Column.isEdgeName_name_edge] at ordinary
  contradiction

/-- Participants who are registered stand behind those beside a block. -/
theorem beside_prefix_registerAll (roster : Roster) (names : List String) (number : Nat) :
    roster.beside number <+: (roster.registerAll names).beside number := by
  obtain ⟨new, _, grown⟩ := exists_registerAll roster names
  rw [beside, beside, grown, List.filter_append]
  exact List.prefix_append _ _

/-- The edges of a block come to stand around the participants of a middle part, outside of which
nothing is used. -/
theorem beside_enclose_eq {block : Nat} (framed : ∀ side, Column.outer side ∉ roster.inner)
    (absent : ∀ side, Column.edge block side ∉ roster.inner) (used : List Column) :
    ∃ before middle after, roster.inner = before ++ middle ++ after ∧
      (roster.enclose block used).beside block =
        before.filter (Column.isNeighbour block) ++
          .edge block .left :: (middle.filterMap Column.participant?).map Column.participant ++
          .edge block .right :: after.filter (Column.isNeighbour block) ∧
      (∀ column ∈ before ++ after, column ∉ used) ∧
      ((∃ column ∈ middle.head?, column ∈ used) ∧ (∃ column ∈ middle.getLast?, column ∈ used) ∨
        before = [] ∧ after = [] ∧ ∀ column ∈ roster.inner, column ∉ used) := by
  obtain ⟨before, middle, after, split, enclosed, clean, hit⟩ := roster.enclose_eq block used
  refine ⟨before, middle, after, split, ?_, clean, hit⟩
  have own (side : Side) : (Column.edge block side).isNeighbour block = true := by
    simp [Column.isNeighbour]
  have names : middle.filter (Column.isNeighbour block) =
      (middle.filterMap Column.participant?).map Column.participant := by
    apply Column.filter_isNeighbour
    · exact fun side member => framed side (by simp [split, member])
    · exact fun side member => absent side (by simp [split, member])
  rw [beside, enclosed, List.filter_append, List.filter_append, List.filter_cons_of_pos (own _),
    List.filter_cons_of_pos (own _), names]

/-- A block does not get its neighbours from the edges of another one. -/
theorem beside_enclose {block number : Nat} (other : block ≠ number) (roster : Roster)
    (used : List Column) : (roster.enclose block used).beside number = roster.beside number := by
  obtain ⟨before, middle, after, split, enclosed, _, _⟩ := roster.enclose_eq block used
  have apart (side : Side) : ¬(Column.edge block side).isNeighbour number = true := by
    simpa [Column.isNeighbour] using other
  rw [beside, beside, split, enclosed]
  simp only [List.filter_append, List.filter_cons_of_neg (apart _)]

end Roster

namespace Assembly

variable {assembly next : Assembly} {number : Nat}

/-- A block has no edges among the columns as long as it is open. -/
theorem Numbered.notMem_inner_of_mem {frame : Frame} (numbered : assembly.Numbered)
    (opened : frame ∈ assembly.frames) (side : Side) :
    Column.edge frame.number side ∉ assembly.roster.inner := by
  intro member
  have distinct := numbered.1
  rw [claimed, List.nodup_append'] at distinct
  have claims : (frame.number, side) ∈ assembly.frames.flatMap fun frame =>
      [(frame.number, Side.left), (frame.number, Side.right)] :=
    List.mem_flatMap.mpr ⟨frame, opened, by cases side <;> simp⟩
  exact distinct.2.2 claims (Roster.mem_edges.mpr member)

/-- The edges of an open block have no column yet. -/
theorem Numbered.notMem_inner {frame : Frame} {outer : List Frame} (numbered : assembly.Numbered)
    (inside : assembly.frames = frame :: outer) (side : Side) :
    Column.edge frame.number side ∉ assembly.roster.inner :=
  numbered.notMem_inner_of_mem (inside ▸ List.mem_cons_self) side

/-- No participant is named like an edge if nobody is mentioned by such a name. -/
theorem Lists.plain {names : List String} (lists : assembly.Lists names)
    (plain : ∀ name ∈ names, Column.isEdgeName name = false) :
    ∀ name ∈ assembly.roster.participants, Column.isEdgeName name = false := by
  intro name member
  rw [lists] at member
  exact plain name (Column.mem_listed.mp member).1

theorem lists_of_move (before after : Assembly) (move : Move before after)
    (lists : ∃ names, before.Lists names) : ∃ names, after.Lists names := by
  obtain ⟨earlier, lists⟩ := lists
  cases move with
  | register names => exact ⟨_, lists.register names⟩
  | change change names mode known => exact ⟨earlier, lists.congr (inner_change _ _ _ _)⟩
  | keep frame outer inside live =>
      exact ⟨earlier, (before.roster.participants_enclose _ _).trans lists⟩
  | _ => exact ⟨earlier, lists⟩

/-- Every column has one place, whatever has been mentioned so far. -/
theorem proper_of_moves (moves : Moves {} assembly) : assembly.roster.Proper := by
  obtain ⟨names, lists⟩ := moves.keeps lists_of_move ⟨[], rfl⟩
  exact (sound_of_moves moves).proper lists

/-- Once a block has been kept, only participants who come later are added to its neighbours. -/
theorem beside_prefix_of_move (before after : Assembly) (move : Move before after)
    (numbered : before.Numbered) (kept : Column.edge number .left ∈ before.roster.inner) :
    before.roster.beside number <+: after.roster.beside number := by
  cases move with
  | register names => exact before.roster.beside_prefix_registerAll names number
  | change change names mode known =>
      rw [Roster.beside, Roster.beside, inner_change]
  | keep frame outer inside live =>
      have other : frame.number ≠ number := by
        rintro rfl
        exact numbered.notMem_inner inside .left kept
      have same : (before.keep frame outer).roster.beside number = before.roster.beside number :=
        Roster.beside_enclose other before.roster before.draft.used
      rw [same]
  | _ => exact List.prefix_refl _

/-- What stands beside a kept block stays, and more follows behind it. -/
theorem beside_prefix_of_moves (numbered : assembly.Numbered) (moves : Moves assembly next)
    (kept : Column.edge number .left ∈ assembly.roster.inner) :
    assembly.roster.beside number <+: next.roster.beside number := by
  have holds : next.Numbered ∧ Column.edge number .left ∈ next.roster.inner ∧
      assembly.roster.beside number <+: next.roster.beside number := by
    apply moves.keeps
    · rintro before after move ⟨still, member, grown⟩
      exact ⟨numbered_of_move before after move still,
        (sublist_inner_of_move before after move).mem member,
        grown.trans (beside_prefix_of_move before after move still member)⟩
    · exact ⟨numbered, kept, List.prefix_refl _⟩
  exact holds.2.2

end Assembly

end Lifeline
