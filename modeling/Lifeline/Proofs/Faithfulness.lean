import Lifeline.Proofs.Moves
import Lifeline.Proofs.Outline

/-!
Without changes of participants, the stages of a diagram are those of the outlines of its document.
-/

namespace Lifeline

/-- A pending block is open. It has closed sections, the heading of the section that is open, and
the stages in front of the block, of which it is known whether any is drawn. -/
structure Pending where
  number : Nat
  closed : List (Section Stage)
  mode : BlockMode
  label : String
  stages : List Stage
  live : Bool

/-- A frame is pending with its sections erased. -/
def Frame.pending (frame : Frame) : Pending where
  number := frame.number
  closed := Stage.eraseSections frame.closed
  mode := frame.sectionMode
  label := frame.sectionLabel
  stages := Stage.eraseAll frame.outer.stages
  live := frame.outer.live

namespace Nesting

/-- A nesting completes what is there already: the stages of the open section, of which it is known
whether any section of the block is drawn, and the blocks around it, the innermost first. -/
def complete (stages : List Stage) (live : Bool) : List Pending → Nesting → Option (List Stage)
  | [], .ended items => some (stages ++ Outline.stagesAll items)
  | around :: outer, .split items mode label rest =>
      let behind := stages ++ Outline.stagesAll items
      rest.complete [] (live || Outline.isDrawnAll items)
        ({ around with
            closed := around.closed ++ [⟨around.mode, around.label, behind⟩]
            mode := mode
            label := label } :: outer)
  | around :: outer, .closed items rest =>
      let behind := stages ++ Outline.stagesAll items
      let drawn := live || Outline.isDrawnAll items
      rest.complete
        (around.stages ++ Stage.blockIf drawn around.number
          (around.closed ++ [⟨around.mode, around.label, behind⟩]))
        (around.live || drawn) outer
  | _, _ => none

variable {stages result : List Stage} {live : Bool} {pending outer : List Pending}

end Nesting

/-- A change of participants leaves no trace when it is erased. -/
theorem Change.Extends.eraseAll {change : Change} {names : List String} {mode : Terminator}
    {before after : List Stage} (extended : change.Extends names mode before after) :
    Stage.eraseAll after = Stage.eraseAll before := by
  rcases extended with rfl | ⟨older, earlier, rfl, rfl⟩
  · rw [Stage.eraseAll_append, Stage.eraseAll_singleton, Stage.erase_change, List.append_nil]
  · rw [Stage.eraseAll_append, Stage.eraseAll_append, Stage.eraseAll_singleton,
      Stage.eraseAll_singleton, Stage.erase_change, Stage.erase_change]

namespace Assembly

variable {assembly middle next : Assembly}

/-- An assembly grows within its block by some stages, besides which there are only beginnings and
ends of participants. -/
structure Grows (before after : Assembly) (stages : List Stage) (drawn : Bool) : Prop where
  frames : after.frames = before.frames
  blocks : after.blocks = before.blocks
  stages : Stage.eraseAll after.draft.stages = Stage.eraseAll before.draft.stages ++ stages
  live : after.draft.live = (before.draft.live || drawn)

/-- Stages are added one list after another. -/
theorem Grows.trans {first second : List Stage} {drawn drawnLater : Bool}
    (grows : Grows assembly middle first drawn) (growsOn : Grows middle next second drawnLater) :
    Grows assembly next (first ++ second) (drawn || drawnLater) where
  frames := growsOn.frames.trans grows.frames
  blocks := growsOn.blocks.trans grows.blocks
  stages := by rw [growsOn.stages, grows.stages, List.append_assoc]
  live := by rw [growsOn.live, grows.live, Bool.or_assoc]

/-- A registration adds no stage. -/
theorem grows_register (assembly : Assembly) (names : List String) :
    Grows assembly (assembly.register names) [] false where
  frames := rfl
  blocks := rfl
  stages := (List.append_nil _).symm
  live := (Bool.or_false _).symm

/-- A change counts as drawn if it makes a difference. -/
theorem grows_change (assembly : Assembly) (change : Change) (names : List String)
    (mode : Terminator) :
    Grows assembly (assembly.change change names mode) []
      (decide ((assembly.change change names mode).roster.shown ≠ assembly.roster.shown)) := by
  rw [shown_change]
  rcases assembly.change_cases change names mode with ⟨none, same⟩ | ⟨some, changed⟩
  · rw [same, (assembly.roster.changeable_eq_nil_iff change names).mp none]
    exact ⟨rfl, rfl, (List.append_nil _).symm, by simp⟩
  · have differs := mt (assembly.roster.changeable_eq_nil_iff change names).mpr some
    rw [changed, decide_eq_true differs]
    refine ⟨rfl, rfl, ?_, ?_⟩
    · rw [List.append_nil]
      exact (Draft.extends_change _ change _ mode).eraseAll
    · rw [Bool.or_true]
      exact Draft.live_change _ _ _ _

/-- A stage that is not erased is added as it is. -/
theorem grows_place (assembly : Assembly) (names : List String) {stage : Stage}
    (stays : stage.erase = [stage]) :
    Grows assembly ((assembly.use names).place stage) [stage] stage.isDrawn where
  frames := rfl
  blocks := rfl
  stages := by
    have placed : ((assembly.use names).place stage).draft.stages =
        assembly.draft.stages ++ [stage] :=
      Draft.stages_push _ _
    rw [placed, Stage.eraseAll_append, Stage.eraseAll_singleton, stays]
  live := rfl

/-- A command that changes participants leaves no other stage, and is drawn if it makes a
difference. -/
theorem grows_declare_change {origin : Origin} {command : Command} (change : Change)
    {names : List String} {mode : Terminator}
    (performed : ((assembly.declare origin command names).map fun middle =>
      middle.change change names mode) = .ok next) :
    next.roster.shown = change.apply assembly.roster.shown (Column.participants names) ∧
      Grows assembly next [] (decide (next.roster.shown ≠ assembly.roster.shown)) := by
  obtain ⟨middle, declared, rfl⟩ := except_map_eq_ok.mp performed
  obtain ⟨_, rfl⟩ := declare_eq_ok declared
  have grows := (assembly.grows_register names).trans
    ((assembly.register names).grows_change change names mode)
  rw [Bool.false_or, shown_register] at grows
  exact ⟨by rw [shown_change, shown_register], grows⟩

/-- Participants begin for a message or a note, which is the only stage that stays. -/
theorem grows_speak (assembly : Assembly) (names : List String) (stage : Stage)
    (stays : stage.erase = [stage]) (drawn : stage.isDrawn = true) :
    Grows assembly (assembly.speak names stage) [stage] true := by
  have begun := (assembly.grows_register names).trans
    ((assembly.register names).grows_change .enter names .box)
  have placed := begun.trans (grows_place _ names stays)
  rw [drawn, Bool.or_true] at placed
  exact placed

/-- A plain statement leaves its own stages in the draft and changes who is visible. -/
theorem grows_perform {origin : Origin} {statement : Statement}
    (performed : assembly.perform origin statement = .ok next)
    (plain : statement.isPlain = true) :
    next.roster.shown = statement.shown assembly.roster.shown ∧
      Grows assembly next statement.stages (statement.isDrawn assembly.roster.shown) := by
  cases statement with
  | define mentions =>
      obtain ⟨_, rfl⟩ := declare_eq_ok performed
      rw [Statement.isDrawn_of_shown_eq rfl rfl]
      exact ⟨assembly.shown_register _, assembly.grows_register _⟩
  | enter mentions mode =>
      obtain ⟨shown, grows⟩ := grows_declare_change .enter performed
      rw [shown] at grows
      exact ⟨shown, grows⟩
  | leave mentions mode =>
      obtain ⟨shown, grows⟩ := grows_declare_change .leave performed
      rw [shown] at grows
      exact ⟨shown, grows⟩
  | message sender receiver arrow label =>
      obtain rfl := Except.ok.inj performed
      have spoken := assembly.grows_speak [sender.name, receiver.name]
        (.message sender.name receiver.name arrow label) rfl rfl
      have ended : Grows _ (assembly.message sender receiver arrow label) [] _ :=
        grows_change _ .leave _ .cross
      have sent := spoken.trans ended
      rw [Bool.true_or] at sent
      refine ⟨?_, sent⟩
      rw [message, shown_change, shown_speak]
      rfl
  | note position style mentions label =>
      obtain rfl := Except.ok.inj performed
      refine ⟨?_, assembly.grows_speak _ (.note position style _ label) rfl rfl⟩
      rw [note, shown_speak]
      exact congrArg _ (Statement.participants_placed position mentions)
  | mark name =>
      obtain rfl := Except.ok.inj performed
      rw [Statement.isDrawn_of_shown_eq rfl rfl]
      exact ⟨rfl, rfl, rfl, (assembly.grows_place [] rfl).stages, rfl⟩
  | jump target =>
      rw [Statement.isDrawn_of_shown_eq rfl rfl]
      obtain rfl := jump_eq_ok performed
      exact ⟨rfl, rfl, rfl, (assembly.grows_place [] rfl).stages, rfl⟩
  | openBlock mode label => contradiction
  | splitBlock mode label => contradiction
  | closeBlock => contradiction

variable {statement : Statement} {rest : List Statement} {result : List Stage}
  {frame : Frame} {outer : List Frame}

end Assembly

/-- A block with a mark alone is dropped, and the mark with it. -/
example : (Outline.ofStatements [.openBlock .loop "", .mark "later", .closeBlock]).map
    Outline.stagesAll = some [] := rfl

end Lifeline
