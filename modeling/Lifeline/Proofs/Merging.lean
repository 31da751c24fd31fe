import Mathlib.Data.List.Chain
import Lifeline.Proofs.Invariants

/-! No stage of a diagram could join the one in front of it. -/

namespace Lifeline

namespace Stage

/-- A stage continues another one if both begin lifelines, or both end them, in the same mode. -/
def continues : Stage → Stage → Bool
  | .enter _ mode, .enter _ last => decide (mode = last)
  | .leave _ mode, .leave _ last => decide (mode = last)
  | _, _ => false

/-- Stages are merged if none of them continues the one directly in front of it. -/
def Merged (stages : List Stage) : Prop :=
  stages.IsChain fun first second => second.continues first = false

/-- Only a block has sections below it. -/
def sections : Stage → List (Section Stage)
  | .block _ _ sections => sections
  | _ => []

variable {stage : Stage} {stages : List Stage}

/-- A stage that continues no other one can stand behind any. -/
theorem Merged.append_singleton (merged : Merged stages)
    (fresh : ∀ last ∈ stages.getLast?, stage.continues last = false) :
    Merged (stages ++ [stage]) := by
  refine merged.append (List.isChain_singleton stage) ?_
  intro last member next same
  obtain rfl : stage = next := by simpa using same
  exact fresh last member

/-- A message and a note never join the stage in front of them. -/
theorem continues_of_speaks (spoken : stage.speaks = true) (last : Stage) :
    stage.continues last = false := by
  cases stage <;> first | rfl | contradiction

/-- A mark and a jump never join the stage in front of them. -/
theorem continues_of_not_isDrawn (quiet : stage.isDrawn = false) (last : Stage) :
    stage.continues last = false := by
  cases stage <;> first | rfl | contradiction

/-- A message and a note have no sections. -/
theorem sections_of_speaks (spoken : stage.speaks = true) : stage.sections = [] := by
  cases stage <;> first | rfl | contradiction

/-- A mark and a jump have no sections. -/
theorem sections_of_not_isDrawn (quiet : stage.isDrawn = false) : stage.sections = [] := by
  cases stage <;> first | rfl | contradiction

end Stage

namespace Change

variable {change : Change} {names : List String} {mode : Terminator}

@[simp] theorem sections_stage (change : Change) (names : List String) (mode : Terminator) :
    (change.stage names mode).sections = [] := by
  cases change <;> rfl

/-- A change continues only a stage whose names it could join. -/
theorem continues_stage_eq_false {last : Stage} (apart : change.names? mode last = none) :
    (change.stage names mode).continues last = false := by
  cases change <;> cases last <;> simp_all [names?, stage, Stage.continues, eq_comm]

/-- Which stages a change continues does not depend on the names. -/
theorem continues_stage_congr (change : Change) (first second : List String) (mode : Terminator)
    (last : Stage) :
    (change.stage first mode).continues last = (change.stage second mode).continues last := by
  cases change <;> cases last <;> rfl

/-- A change that extends a list of stages adds no section. -/
theorem Extends.sections {before after : List Stage}
    (extended : change.Extends names mode before after) {stage : Stage} (written : stage ∈ after) :
    stage ∈ before ∨ stage.sections = [] := by
  rcases extended with rfl | ⟨older, earlier, rfl, rfl⟩
  · rcases List.mem_append.mp written with old | new
    · exact Or.inl old
    · rw [List.mem_singleton.mp new]
      exact Or.inr (sections_stage _ _ _)
  · rcases List.mem_append.mp written with old | new
    · exact Or.inl (List.mem_append_left _ old)
    · rw [List.mem_singleton.mp new]
      exact Or.inr (sections_stage _ _ _)

end Change

/-- A change joins the last stage wherever it would continue it. -/
theorem Draft.merged_change {draft : Draft} (merged : Stage.Merged draft.stages) (change : Change)
    (names : List String) (mode : Terminator) :
    Stage.Merged (draft.change change names mode).stages := by
  unfold Draft.change
  split
  · next none =>
      rw [stages_push, stages, none]
      exact List.isChain_singleton _
  · next newest older recent =>
      have written : draft.stages = older.reverse ++ [newest] := by simp [stages, recent]
      split
      · next earlier found =>
          have same := Change.names?_eq_some found
          have joined : Draft.stages { draft with
              recent := change.stage (merge earlier names) mode :: older, live := true } =
                older.reverse ++ [change.stage (merge earlier names) mode] := by simp [stages]
          rw [written, Stage.Merged, List.isChain_append] at merged
          obtain ⟨front, _, fresh⟩ := merged
          rw [joined]
          refine Stage.Merged.append_singleton front ?_
          intro last member
          rw [change.continues_stage_congr _ earlier, ← same]
          exact fresh last member newest rfl
      · next apart =>
          rw [stages_push]
          refine merged.append_singleton ?_
          intro last member
          have newestEq : newest = last := by simpa [written] using member
          exact Change.continues_stage_eq_false (newestEq ▸ apart)

/-- A level is merged if all lists of stages at it and below it are. -/
structure Level.Merged (level : Level) : Prop where
  draft : Stage.Merged level.draft.stages
  closed : ∀ part ∈ level.closed, Stage.Merged part.stages
  below : ∀ stage ∈ level.walk, ∀ part ∈ stage.sections, Stage.Merged part.stages

namespace Level.Merged

variable {closed : List (Section Stage)} {draft : Draft}

/-- A stage without sections that continues nothing can be written anywhere. -/
theorem push (merged : Level.Merged ⟨closed, draft⟩) {stage : Stage}
    (leaf : stage.walk = [stage]) (bare : stage.sections = [])
    (fresh : ∀ last, stage.continues last = false) :
    Level.Merged ⟨closed, draft.push stage⟩ where
  draft := by
    rw [Draft.stages_push]
    exact merged.draft.append_singleton fun last _ => fresh last
  closed := merged.closed
  below := by
    intro other member
    rw [Level.walk_push, leaf] at member
    rcases List.mem_append.mp member with old | new
    · exact merged.below other old
    · rw [List.mem_singleton.mp new, bare]
      exact fun _ none => absurd none List.not_mem_nil

/-- Using columns changes no stage. -/
theorem use (merged : Level.Merged ⟨closed, draft⟩) (columns : List Column) :
    Level.Merged ⟨closed, draft.use columns⟩ :=
  ⟨merged.draft, merged.closed, merged.below⟩

/-- A change joins the last stage if it can, and so it keeps a level merged. -/
theorem change (merged : Level.Merged ⟨closed, draft⟩) (change : Change) (names : List String)
    (mode : Terminator) : Level.Merged ⟨closed, draft.change change names mode⟩ where
  draft := Draft.merged_change merged.draft change names mode
  closed := merged.closed
  below := by
    intro stage member
    have extended := ((draft.extends_change change names mode).walkAll).append_left
      (Stage.walkSections closed)
    rcases extended.sections member with old | bare
    · exact merged.below stage old
    · rw [bare]
      exact fun _ none => absurd none List.not_mem_nil

/-- The sections of a block are those that were closed and the one that is drafted last. -/
theorem sections {frame : Frame} (merged : Level.Merged ⟨frame.closed, draft⟩) :
    ∀ part ∈ frame.sections draft.stages, Stage.Merged part.stages := by
  intro part member
  rcases List.mem_append.mp member with old | new
  · exact merged.closed part old
  · rw [List.mem_singleton.mp new]
    exact merged.draft

end Level.Merged

namespace Assembly

/-- An assembly is merged if all of its levels are. -/
def Merged (assembly : Assembly) : Prop := ∀ level ∈ assembly.levels, level.Merged

/-- Every move keeps the levels merged. -/
theorem merged_of_move (before after : Assembly) (move : Move before after)
    (merged : before.Merged) : after.Merged := by
  cases move with
  | register names => exact merged
  | change change names mode known =>
      rcases before.change_cases change names mode with ⟨_, same⟩ | ⟨_, changed⟩
      · rw [same]
        exact merged
      · rw [changed]
        refine forall_levels_of_frames merged rfl ?_
        exact ((forall_levels_innermost merged).use _).change change _ mode
  | speak stage spoken known present =>
      refine forall_levels_of_frames merged rfl ?_
      exact ((forall_levels_innermost merged).use _).push (Stage.walk_of_speaks spoken)
        (Stage.sections_of_speaks spoken) (Stage.continues_of_speaks spoken)
  | steer stage silent =>
      refine forall_levels_of_frames merged rfl ?_
      exact (forall_levels_innermost merged).push (Stage.walk_of_not_isDrawn silent)
        (Stage.sections_of_not_isDrawn silent) (Stage.continues_of_not_isDrawn silent)
  | record markers taken => exact merged
  | openBlock origin mode label =>
      intro level member
      rw [levels_openBlock] at member
      rcases List.mem_cons.mp member with rfl | member
      · exact ⟨List.isChain_nil, fun _ none => absurd none List.not_mem_nil,
          fun _ none => absurd none List.not_mem_nil⟩
      · exact merged level member
  | divide frame outer mode label inside =>
      refine forall_levels_divide merged inside ?_
      have block := forall_levels_inside merged inside
      refine ⟨List.isChain_nil, block.sections, ?_⟩
      rw [walk_divide]
      exact block.below
  | keep frame outer inside live =>
      have around := forall_levels_drop merged inside
      have block := forall_levels_inside merged inside
      refine forall_levels_of_frames around rfl ?_
      have outside := forall_levels_innermost around
      refine ⟨?_, outside.closed, ?_⟩
      · have kept : (before.keep frame outer).draft.stages =
            frame.outer.stages ++ [frame.block before.draft.stages] := Draft.stages_push _ _
        rw [kept]
        exact outside.draft.append_singleton fun _ _ => rfl
      · intro stage member
        rw [before.walk_keep frame outer] at member
        rcases List.mem_append.mp member with old | inner
        · exact outside.below stage old
        · rcases List.mem_cons.mp inner with rfl | within
          · exact block.sections
          · exact block.below stage within
  | drop frame outer inside dead => exact forall_levels_drop merged inside

/-- Every assembly that a document leads to is merged. -/
theorem merged_of_moves {assembly : Assembly} (moves : Moves {} assembly) : assembly.Merged := by
  apply moves.keeps merged_of_move
  intro level member
  rw [List.mem_singleton.mp member]
  exact ⟨List.isChain_nil, fun _ none => absurd none List.not_mem_nil,
    fun _ none => absurd none List.not_mem_nil⟩

end Assembly

/-- In no list of stages in a diagram, that of the diagram itself or that of a section of a block,
do two stages follow one another that begin lifelines, or end them, in the same mode. -/
theorem merged_assemble {document : Document} {diagram : Diagram}
    (assembled : document.assemble = .ok diagram) :
    Stage.Merged diagram.stages ∧
      ∀ stage ∈ Stage.walkAll diagram.stages, ∀ part ∈ stage.sections,
        Stage.Merged part.stages := by
  obtain ⟨last, ran, closed, rfl⟩ := Assembly.assemble_eq_ok assembled
  have ended : Assembly.Moves {} (last.ended document.header) :=
    (Assembly.moves_run ran).tail (.change last .leave _ _ (by simp))
  have outermost : (last.ended document.header).frames = [] :=
    (last.frames_change _ _ _).trans closed
  have merged := Assembly.merged_of_moves ended
  rw [Assembly.Merged, Assembly.levels, outermost] at merged
  have diagram := merged _ (List.mem_singleton.mpr rfl)
  exact ⟨diagram.draft, diagram.below⟩

/-- A block that is dropped stands between two beginnings here, and the last end is that of the
document. -/
def Document.handover : Document where
  header := { terminators := .cross }
  statements :=
    [ ⟨.enter [{ name := "A" }] .box, .origin⟩,
      ⟨.openBlock .loop "", .origin⟩,
      ⟨.mark "later", .origin⟩,
      ⟨.closeBlock, .origin⟩,
      ⟨.enter [{ name := "B" }] .box, .origin⟩,
      ⟨.message { name := "A" } { name := "B", flag := some .depart } .plain "call", .origin⟩ ]

theorem merged_handover :
    ∃ diagram, Document.handover.assemble = .ok diagram ∧
      diagram.stages = [.enter ["A", "B"] .box, .message "A" "B" .plain "call",
        .leave ["B", "A"] .cross] ∧
      Stage.Merged diagram.stages ∧
        ∀ stage ∈ Stage.walkAll diagram.stages, ∀ part ∈ stage.sections,
          Stage.Merged part.stages := by
  have assembled : ∃ diagram, Document.handover.assemble = .ok diagram ∧
      diagram.stages = [.enter ["A", "B"] .box, .message "A" "B" .plain "call",
        .leave ["B", "A"] .cross] := ⟨_, rfl, rfl⟩
  obtain ⟨diagram, assembled, stages⟩ := assembled
  exact ⟨diagram, assembled, stages, merged_assemble assembled⟩

end Lifeline
