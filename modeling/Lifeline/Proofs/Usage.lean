import Lifeline.Proofs.Listing

/-! A draft has used exactly the columns that the stages at its level need. -/

namespace Lifeline

namespace Stage

/-- A stage needs the columns of the participants that it is about, and a block those at its edges.
-/
def Needs (stage : Stage) : Column → Prop
  | .outer _ => False
  | .participant name => name ∈ stage.about ∧ Column.isReserved name = false
  | .edge number side => (Column.edge number side).name ∈ stage.edges

/-- Some of the stages needs the column. -/
def Needed (stages : List Stage) (column : Column) : Prop := ∃ stage ∈ stages, stage.Needs column

variable {stage : Stage} {column : Column}

@[simp] theorem not_needed_nil : ¬Needed [] column := by
  simp [Needed]

@[simp] theorem needed_cons {rest : List Stage} :
    Needed (stage :: rest) column ↔ stage.Needs column ∨ Needed rest column := by
  simp [Needed]

@[simp] theorem needed_append {first second : List Stage} :
    Needed (first ++ second) column ↔ Needed first column ∨ Needed second column := by
  simp [Needed, or_and_right, exists_or]

/-- A stage that is no block needs the columns of participants only. -/
theorem needs_of_edges_eq_nil (bare : stage.edges = []) :
    stage.Needs column ↔
      ∃ name ∈ stage.about, Column.isReserved name = false ∧ column = .participant name := by
  cases column with
  | outer side => simp [Needs]
  | participant name => simp [Needs]
  | edge number side => simp [Needs, bare]

/-- A stage that leaves nothing on the page needs no column. -/
theorem not_needs_of_not_isDrawn (quiet : stage.isDrawn = false) : ¬stage.Needs column := by
  rw [needs_of_edges_eq_nil (edges_of_not_isDrawn quiet), about_of_not_isDrawn quiet]
  simp

/-- By itself a block needs the columns at its edges and no others. -/
theorem needs_block {number : Nat} {sections : List (Section Stage)} :
    (block (Column.edge number .left).name (Column.edge number .right).name sections).Needs column ↔
      column = .edge number .left ∨ column = .edge number .right := by
  cases column with
  | outer side => simp [Needs]
  | participant name => simp [Needs, about]
  | edge other side =>
      rw [Needs, Stage.edges, List.mem_cons, List.mem_singleton]
      constructor
      · rintro (same | same)
        · have numbers := @Column.name_edge_injective (other, side) (number, .left) same
          exact Or.inl (by rw [(Prod.mk.inj numbers).1, (Prod.mk.inj numbers).2])
        · have numbers := @Column.name_edge_injective (other, side) (number, .right) same
          exact Or.inr (by rw [(Prod.mk.inj numbers).1, (Prod.mk.inj numbers).2])
      · rintro (same | same)
        · exact Or.inl (by rw [same])
        · exact Or.inr (by rw [same])

end Stage

/-- What an extended list of stages needs is what it has needed before and the columns of the
participants that change. -/
theorem Change.Extends.needed {change : Change} {names : List String} {mode : Terminator}
    {before after : List Stage} (extended : change.Extends names mode before after)
    {column : Column} :
    Stage.Needed after column ↔ Stage.Needed before column ∨
      ∃ name ∈ names, Column.isReserved name = false ∧ column = .participant name := by
  have own (names : List String) : (change.stage names mode).Needs column ↔
      ∃ name ∈ names, Column.isReserved name = false ∧ column = .participant name := by
    rw [Stage.needs_of_edges_eq_nil (change.edges_stage names mode), change.about_stage]
  rcases extended with rfl | ⟨older, earlier, rfl, rfl⟩
  · simp [own]
  · simp [own, Draft.mem_merge, or_and_right, exists_or, or_assoc]

namespace Draft

variable {draft : Draft} {column : Column}

@[simp] theorem used_push (draft : Draft) (stage : Stage) :
    (draft.push stage).used = draft.used := rfl

@[simp] theorem used_change (draft : Draft) (change : Change) (names : List String)
    (mode : Terminator) : (draft.change change names mode).used = draft.used := by
  unfold Draft.change
  split
  · rfl
  · split <;> rfl

/-- All columns that are used count, except the outer ones. -/
theorem mem_used_use {columns : List Column} :
    column ∈ (draft.use columns).used ↔
      column ∈ draft.used ∨ column ∈ columns ∧ ∀ side, column ≠ .outer side := by
  rw [use, List.mem_append, List.mem_filter]
  cases column <;> simp

/-- Names that are used count with the columns of the participants among them. -/
theorem mem_used_use_named {names : List String} :
    column ∈ (draft.use (names.map Column.named)).used ↔ column ∈ draft.used ∨
      ∃ name ∈ names, Column.isReserved name = false ∧ column = .participant name := by
  rw [mem_used_use, List.mem_map]
  refine or_congr_right ⟨?_, ?_⟩
  · rintro ⟨⟨name, member, rfl⟩, inner⟩
    cases free : Column.isReserved name with
    | true =>
        obtain ⟨side, outer⟩ := Column.named_eq_outer free
        exact absurd outer (inner side)
    | false => exact ⟨name, member, free, Column.named_eq_participant free⟩
  · rintro ⟨name, member, free, rfl⟩
    exact ⟨⟨name, member, Column.named_eq_participant free⟩, by simp⟩

end Draft

/-- The draft of a level has used exactly what the stages at the level need. -/
def Level.Accounted (level : Level) : Prop :=
  ∀ column, column ∈ level.draft.used ↔ Stage.Needed level.walk column

namespace Assembly

variable {assembly : Assembly}

/-- An assembly is accounted for if all of its levels are. -/
def Accounted (assembly : Assembly) : Prop := ∀ level ∈ assembly.levels, level.Accounted

/-- The stages of a block and the block itself need what has been used in it, and its edges. -/
theorem mem_used_keep {frame : Frame} {outer : List Frame} {column : Column}
    (accounted : Level.Accounted ⟨frame.closed, assembly.draft⟩) :
    column ∈ (assembly.keep frame outer).draft.used ↔ column ∈ frame.outer.used ∨
      Stage.Needed (frame.block assembly.draft.stages ::
        Level.walk ⟨frame.closed, assembly.draft⟩) column := by
  have kept : (assembly.keep frame outer).draft.used = (frame.outer.use (assembly.draft.used ++
      [Column.edge frame.number .left, Column.edge frame.number .right])).used := rfl
  rw [kept, Draft.mem_used_use, List.mem_append, Stage.needed_cons, Frame.block,
    Stage.needs_block, ← accounted column]
  refine or_congr_right ?_
  have own : column ∈ [Column.edge frame.number .left, .edge frame.number .right] ↔
      column = .edge frame.number .left ∨ column = .edge frame.number .right := by simp
  rw [own]
  constructor
  · rintro ⟨inner | edge, _⟩
    · exact Or.inr inner
    · exact Or.inl edge
  · rintro (edge | inner)
    · refine ⟨Or.inr edge, ?_⟩
      rcases edge with rfl | rfl <;> simp
    · refine ⟨Or.inl inner, ?_⟩
      rintro side rfl
      obtain ⟨stage, _, needs⟩ := (accounted _).mp inner
      exact needs.elim

/-- Every move keeps the used columns at each level those that its stages need. -/
theorem accounted_of_move (before after : Assembly) (move : Move before after)
    (accounted : before.Accounted) : after.Accounted := by
  cases move with
  | register names => exact accounted
  | change change names mode known =>
      rcases before.change_cases change names mode with ⟨_, same⟩ | ⟨_, changed⟩
      · rw [same]
        exact accounted
      · rw [changed]
        refine forall_levels_of_frames accounted rfl ?_
        intro column
        have extended := (before.draft.use ((before.roster.changeable change names).map
          Column.named)).extends_change change (before.roster.changeable change names) mode
        rw [Draft.used_change, Draft.mem_used_use_named, Level.walk, Stage.needed_append,
          extended.walkAll.needed, Draft.stages_use, ← or_assoc, ← Stage.needed_append]
        exact or_congr_left (forall_levels_innermost accounted column)
  | speak stage spoken known present =>
      refine forall_levels_of_frames accounted rfl ?_
      intro column
      have written : Level.walk ⟨before.closed, ((before.use stage.about).place stage).draft⟩ =
          Level.walk ⟨before.closed, before.draft⟩ ++ [stage] := by
        rw [place, Level.walk_push, Stage.walk_of_speaks spoken]
        rfl
      rw [written, Stage.needed_append, Stage.needed_cons,
        Stage.needs_of_edges_eq_nil (Stage.edges_of_speaks spoken), place, Draft.used_push, use,
        Draft.mem_used_use_named]
      simp only [Stage.not_needed_nil, or_false]
      exact or_congr_left (forall_levels_innermost accounted column)
  | steer stage silent =>
      refine forall_levels_of_frames accounted rfl ?_
      intro column
      rw [place, Level.walk_push, Stage.walk_of_not_isDrawn silent, Stage.needed_append,
        Stage.needed_cons]
      simp only [Stage.not_needed_nil, Stage.not_needs_of_not_isDrawn silent, or_false]
      exact forall_levels_innermost accounted column
  | record markers taken => exact accounted
  | openBlock origin mode label =>
      intro level member
      rw [levels_openBlock] at member
      rcases List.mem_cons.mp member with rfl | member
      · intro column
        simp [Level.walk, Draft.stages, Stage.walkSections, Stage.walkAll]
      · exact accounted level member
  | divide frame outer mode label inside =>
      refine forall_levels_divide accounted inside ?_
      intro column
      rw [walk_divide]
      exact forall_levels_inside accounted inside column
  | keep frame outer inside live =>
      have around := forall_levels_drop accounted inside
      refine forall_levels_of_frames around rfl ?_
      intro column
      have written := before.walk_keep frame outer
      rw [mem_used_keep (forall_levels_inside accounted inside), written, Stage.needed_append]
      exact or_congr_left (forall_levels_innermost around column)
  | drop frame outer inside dead => exact forall_levels_drop accounted inside

/-- Nothing is used at the start, and nothing is needed. -/
theorem accounted_start : Accounted {} := by
  intro level member column
  rw [List.mem_singleton.mp member]
  simp [Level.walk, Draft.stages, Stage.walkSections, Stage.walkAll]

/-- In every assembly that a document leads to, the used columns are the needed ones. -/
theorem accounted_of_moves (moves : Moves {} assembly) : assembly.Accounted :=
  moves.keeps accounted_of_move accounted_start

end Assembly

end Lifeline
