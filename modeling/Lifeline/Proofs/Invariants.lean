import Lifeline.Proofs.Moves

/-! Every move keeps silent levels silent, and columns for all who are visible. -/

namespace Lifeline

/-- A level that is not live leaves nothing on the page. -/
def Level.Quiet (level : Level) : Prop :=
  level.draft.live = false → ∀ stage ∈ level.walk, stage.isDrawn = false

/-- Nothing is asked of a level that is live. -/
theorem Level.quiet_of_live {level : Level} (live : level.draft.live = true) : level.Quiet := by
  intro quiet
  rw [live] at quiet
  contradiction

namespace Assembly

variable {assembly next : Assembly}

/-- An assembly is quiet if all of its levels are. -/
def Quiet (assembly : Assembly) : Prop := ∀ level ∈ assembly.levels, level.Quiet

/-- Everyone who is visible is a participant with a column. -/
def Known (assembly : Assembly) : Prop :=
  ∀ name ∈ assembly.roster.visible,
    Column.isReserved name = false ∧ Column.participant name ∈ assembly.roster.inner

/-- As long as the frames stay, only the innermost level changes. -/
theorem forall_levels_of_frames {Holds : Level → Prop}
    (all : ∀ level ∈ assembly.levels, Holds level) (same : next.frames = assembly.frames)
    (innermost : Holds ⟨assembly.closed, next.draft⟩) : ∀ level ∈ next.levels, Holds level := by
  intro level member
  rw [levels_of_frames same] at member
  rcases List.mem_cons.mp member with rfl | member
  · exact innermost
  · exact all level (by rw [levels_eq]; exact List.mem_cons_of_mem _ member)

/-- The levels around a block stay when it is left. -/
theorem forall_levels_drop {Holds : Level → Prop} {frame : Frame} {outer : List Frame}
    (all : ∀ level ∈ assembly.levels, Holds level) (inside : assembly.frames = frame :: outer) :
    ∀ level ∈ (assembly.drop frame outer).levels, Holds level := by
  intro level member
  exact all level (by rw [levels_inside inside]; exact List.mem_cons_of_mem _ member)

/-- A split changes the innermost level only. -/
theorem forall_levels_divide {Holds : Level → Prop} {frame : Frame} {outer : List Frame}
    (all : ∀ level ∈ assembly.levels, Holds level) (inside : assembly.frames = frame :: outer)
    {mode : BlockMode} {label : String}
    (innermost : Holds ⟨frame.sections assembly.draft.stages,
      { assembly.draft with recent := [] }⟩) :
    ∀ level ∈ (assembly.divide frame outer mode label).levels, Holds level := by
  intro level member
  rcases List.mem_cons.mp member with rfl | member
  · exact innermost
  · exact all level (by rw [levels_inside inside]; exact List.mem_cons_of_mem _ member)

/-- Inside of a block, the innermost level has the closed sections of the block. -/
theorem forall_levels_inside {Holds : Level → Prop} {frame : Frame} {outer : List Frame}
    (all : ∀ level ∈ assembly.levels, Holds level) (inside : assembly.frames = frame :: outer) :
    Holds ⟨frame.closed, assembly.draft⟩ :=
  all _ (by rw [levels_inside inside]; exact List.mem_cons_self)

theorem forall_levels_innermost {Holds : Level → Prop}
    (all : ∀ level ∈ assembly.levels, Holds level) : Holds ⟨assembly.closed, assembly.draft⟩ :=
  all _ (by rw [levels_eq]; exact List.mem_cons_self)

/-- A section that is closed leaves the walk of its level as it was. -/
theorem walk_divide (frame : Frame) (draft : Draft) :
    Level.walk ⟨frame.sections draft.stages, { draft with recent := [] }⟩ =
      Level.walk ⟨frame.closed, draft⟩ := by
  rw [Level.walk, walkSections_sections]
  exact List.append_nil _

/-- A block that is kept is walked behind what was drafted around it, and all inside of it behind
the block. -/
theorem walk_keep (assembly : Assembly) (frame : Frame) (outer : List Frame) :
    Level.walk ⟨(assembly.drop frame outer).closed, (assembly.keep frame outer).draft⟩ =
      Level.walk ⟨(assembly.drop frame outer).closed, frame.outer⟩ ++
        frame.block assembly.draft.stages :: Level.walk ⟨frame.closed, assembly.draft⟩ := by
  rw [← walk_block]
  exact Level.walk_push _ _ _

theorem Quiet.innermost (quiet : assembly.Quiet) : Level.Quiet ⟨assembly.closed, assembly.draft⟩ :=
  forall_levels_innermost quiet

theorem Quiet.inside {frame : Frame} {outer : List Frame} (quiet : assembly.Quiet)
    (inside : assembly.frames = frame :: outer) :
    Level.Quiet ⟨frame.closed, assembly.draft⟩ :=
  forall_levels_inside quiet inside

/-- Where the open blocks stay, only the innermost level has to be looked at. -/
theorem Quiet.of_frames (quiet : assembly.Quiet) (same : next.frames = assembly.frames)
    (innermost : Level.Quiet ⟨assembly.closed, next.draft⟩) : next.Quiet :=
  forall_levels_of_frames quiet same innermost

/-- The levels around a dropped block stay quiet. -/
theorem Quiet.drop {frame : Frame} {outer : List Frame} (quiet : assembly.Quiet)
    (inside : assembly.frames = frame :: outer) : (assembly.drop frame outer).Quiet :=
  forall_levels_drop quiet inside

/-- A split keeps the innermost level quiet, since the closed section counts as before. -/
theorem Quiet.divide {frame : Frame} {outer : List Frame} (quiet : assembly.Quiet)
    (inside : assembly.frames = frame :: outer) (mode : BlockMode) (label : String) :
    (assembly.divide frame outer mode label).Quiet := by
  refine forall_levels_divide quiet inside ?_
  intro dead stage written
  rw [walk_divide] at written
  exact quiet.inside inside dead stage written

/-- Every move keeps the levels quiet. -/
theorem quiet_of_move (before after : Assembly) (move : Move before after) (quiet : before.Quiet) :
    after.Quiet := by
  cases move with
  | register names => exact quiet
  | change change names mode known =>
      rcases before.change_cases change names mode with ⟨_, same⟩ | ⟨_, changed⟩
      · rw [same]
        exact quiet
      · rw [changed]
        exact quiet.of_frames rfl (Level.quiet_of_live (Draft.live_change _ _ _ _))
  | speak stage spoken known present =>
      refine quiet.of_frames rfl (Level.quiet_of_live ?_)
      simp [place, Draft.push, Stage.isDrawn_of_speaks spoken]
  | steer stage silent =>
      refine quiet.of_frames rfl ?_
      intro dead other member
      have wasDead : before.draft.live = false := by
        simpa [place, Draft.push, silent] using dead
      rw [place, Level.walk_push, Stage.walk_of_not_isDrawn silent] at member
      rcases List.mem_append.mp member with old | new
      · exact quiet.innermost wasDead other old
      · rw [List.mem_singleton.mp new]
        exact silent
  | record markers taken => exact quiet
  | openBlock origin mode label =>
      intro level member
      rw [levels_openBlock] at member
      rcases List.mem_cons.mp member with rfl | member
      · intro _ stage nothing
        exact absurd nothing (List.not_mem_nil)
      · exact quiet level member
  | divide frame outer mode label inside => exact quiet.divide inside mode label
  | keep frame outer inside live =>
      exact (quiet.drop inside).of_frames rfl (Level.quiet_of_live (Bool.or_true _))
  | drop frame outer inside dead => exact quiet.drop inside

/-- Whoever can end has a column. -/
theorem Known.leaving (known : assembly.Known) (names : List String) :
    ∀ name ∈ assembly.roster.changeable .leave names,
      Column.named name ∈ assembly.roster.columns := by
  intro name member
  obtain ⟨free, column⟩ := known name (Roster.mem_changeable_leave.mp member).2.2
  rw [Column.named_eq_participant free]
  exact Roster.participant_mem_columns.mpr column

/-- Every move keeps a column for each visible participant. -/
theorem known_of_move (before after : Assembly) (move : Move before after) (known : before.Known) :
    after.Known := by
  cases move with
  | register names =>
      intro name visible
      have facts := known name (by simpa [register] using visible)
      exact ⟨facts.1, Roster.mem_inner_registerAll names facts.2⟩
  | change change names mode listed =>
      intro name visible
      rw [← Roster.mem_shown, shown_change] at visible
      rw [inner_change]
      cases change with
      | enter =>
          rcases Finset.mem_union.mp visible with old | new
          · exact known name (Roster.mem_shown.mp old)
          · obtain ⟨member, free⟩ := Column.mem_participants.mp new
            have column := listed rfl name member
            rw [Column.named_eq_participant free] at column
            exact ⟨free, Roster.participant_mem_columns.mp column⟩
      | leave =>
          have old := (Finset.mem_sdiff.mp visible).1
          exact known name (Roster.mem_shown.mp old)
  | speak stage spoken listed present => exact known
  | steer stage silent => exact known
  | record markers taken => exact known
  | openBlock origin mode label => exact known
  | divide frame outer mode label inside => exact known
  | keep frame outer inside live =>
      intro name visible
      have facts := known name (by simpa [keep] using visible)
      exact ⟨facts.1, Roster.mem_inner_enclose _ _ facts.2⟩
  | drop frame outer inside dead => exact known

/-- Every assembly that a document leads to is quiet. -/
theorem quiet_of_moves (moves : Moves {} assembly) : assembly.Quiet := by
  apply moves.keeps quiet_of_move
  intro level member
  rw [List.mem_singleton.mp member]
  intro _ stage nothing
  exact absurd nothing (List.not_mem_nil)

/-- In every assembly that a document leads to, whoever is visible has a column. -/
theorem known_of_moves (moves : Moves {} assembly) : assembly.Known :=
  moves.keeps known_of_move fun _ visible => absurd visible (List.not_mem_nil)

end Assembly

end Lifeline
