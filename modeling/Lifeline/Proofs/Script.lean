import Lifeline.Proofs.Moves

/-! A script writes stages as statements again. -/

namespace Lifeline

/-- A plain mention carries no flag. -/
def Mention.plain (name : String) : Mention := { name := name }

@[simp] theorem Mention.name_plain (name : String) : (Mention.plain name).name = name := rfl

@[simp] theorem Mention.map_name_plain (names : List String) :
    (names.map Mention.plain).map Mention.name = names := by
  simp [Function.comp_def]

/-- This statement asks for a change of the named participants. -/
def Change.statement (names : List String) (mode : Terminator) : Change → Statement
  | .enter => .enter (names.map Mention.plain) mode
  | .leave => .leave (names.map Mention.plain) mode

namespace Stage

mutual

def script : Stage → List Statement
  | .mark name => [.mark name]
  | .jump target => [.jump target]
  | .message sender receiver arrow label =>
      [.message (Mention.plain sender) (Mention.plain receiver) arrow label]
  | .enter names mode => [Change.enter.statement names mode]
  | .leave names mode => [Change.leave.statement names mode]
  | .note position style names label => [.note position style (names.map Mention.plain) label]
  | .block _ _ sections => scriptSections .openBlock sections ++ [.closeBlock]

/-- The heading of the first section opens the block, and the others split it. -/
def scriptSections : (BlockMode → String → Statement) → List (Section Stage) → List Statement
  | _, [] => []
  | heading, ⟨mode, label, stages⟩ :: rest =>
      heading mode label :: scriptAll stages ++ scriptSections .splitBlock rest

def scriptAll : List Stage → List Statement
  | [] => []
  | stage :: rest => script stage ++ scriptAll rest

end

theorem scriptAll_append (first second : List Stage) :
    scriptAll (first ++ second) = scriptAll first ++ scriptAll second := by
  induction first with
  | nil => rfl
  | cons stage rest ih => rw [List.cons_append, scriptAll, scriptAll, ih, List.append_assoc]

theorem scriptAll_singleton (stage : Stage) : scriptAll [stage] = stage.script := by
  rw [scriptAll, scriptAll, List.append_nil]

/-- The script of a change is one statement. -/
theorem script_change (change : Change) (names : List String) (mode : Terminator) :
    (change.stage names mode).script = [change.statement names mode] := by
  cases change <;> rw [Change.stage, script]

/-- Stages behind a section come behind the script of the block so far. -/
theorem scriptSections_grow (heading : BlockMode → String → Statement)
    (sections : List (Section Stage)) (mode : BlockMode) (label : String)
    (stages more : List Stage) :
    scriptSections heading (sections ++ [⟨mode, label, stages ++ more⟩]) =
      scriptSections heading (sections ++ [⟨mode, label, stages⟩]) ++ scriptAll more := by
  induction sections generalizing heading with
  | nil => simp [scriptSections, scriptAll_append]
  | cons head rest ih =>
      rw [List.cons_append, List.cons_append, scriptSections, scriptSections, ih,
        List.append_assoc]

/-- A further section splits the block. -/
theorem scriptSections_split (heading : BlockMode → String → Statement)
    (sections : List (Section Stage)) (last : Section Stage) (mode : BlockMode) (label : String) :
    scriptSections heading (sections ++ [last] ++ [⟨mode, label, []⟩]) =
      scriptSections heading (sections ++ [last]) ++ [.splitBlock mode label] := by
  induction sections generalizing heading with
  | nil => simp [scriptSections, scriptAll]
  | cons head rest ih =>
      rw [List.cons_append, List.cons_append, scriptSections, scriptSections, ih,
        List.append_assoc]

end Stage

namespace Draft

/-- The draft continues what has been written around the open blocks. -/
def script (draft : Draft) : List Frame → List Statement
  | [] => Stage.scriptAll draft.stages
  | frame :: outer =>
      frame.outer.script outer ++ Stage.scriptSections .openBlock (frame.sections draft.stages)

/-- Stages that are added to a draft are added to its script. -/
theorem script_grow {draft next : Draft} {more : List Stage}
    (grown : next.stages = draft.stages ++ more) (frames : List Frame) :
    next.script frames = draft.script frames ++ Stage.scriptAll more := by
  cases frames with
  | nil => rw [script, script, grown, Stage.scriptAll_append]
  | cons frame outer =>
      rw [script, script, grown, Frame.sections, Stage.scriptSections_grow, List.append_assoc,
        Frame.sections]

end Draft

namespace Assembly

variable {assembly : Assembly} {frame : Frame} {outer : List Frame}

/-- These statements write what has been drafted so far. -/
def script (assembly : Assembly) : List Statement := assembly.draft.script assembly.frames

/-- A placed stage adds its script. -/
theorem script_place (assembly : Assembly) (stage : Stage) :
    (assembly.place stage).script = assembly.script ++ stage.script := by
  rw [← Stage.scriptAll_singleton]
  exact Draft.script_grow (assembly.draft.stages_push stage) assembly.frames

@[simp] theorem script_use (assembly : Assembly) (names : List String) :
    (assembly.use names).script = assembly.script := by
  rw [script, script, use]
  cases assembly.frames <;> rfl

/-- An opened block adds its opening. -/
theorem script_openBlock (assembly : Assembly) (origin : Origin) (mode : BlockMode)
    (label : String) :
    (assembly.openBlock origin mode label).script =
      assembly.script ++ [.openBlock mode label] := rfl

/-- A split adds itself. -/
theorem script_divide (inside : assembly.frames = frame :: outer) (mode : BlockMode)
    (label : String) :
    (assembly.divide frame outer mode label).script =
      assembly.script ++ [.splitBlock mode label] := by
  have divided : (assembly.divide frame outer mode label).script = frame.outer.script outer ++
      Stage.scriptSections .openBlock
        (frame.sections assembly.draft.stages ++ [⟨mode, label, []⟩]) := rfl
  rw [divided, Frame.sections, Stage.scriptSections_split, ← List.append_assoc, script, inside,
    Draft.script, Frame.sections]

/-- A block that is kept adds its end. -/
theorem script_keep (inside : assembly.frames = frame :: outer) :
    (assembly.keep frame outer).script = assembly.script ++ [.closeBlock] := by
  have grown : (assembly.keep frame outer).draft.stages =
      frame.outer.stages ++ [frame.block assembly.draft.stages] := Draft.stages_push _ _
  have kept : (assembly.keep frame outer).script = frame.outer.script outer ++
      Stage.scriptAll [frame.block assembly.draft.stages] := Draft.script_grow grown outer
  rw [kept, Stage.scriptAll_singleton, Frame.block, Stage.script, ← List.append_assoc, script,
    inside, Draft.script]

/-- An assembly leads to something if it carries out the statements, whatever their spans are, and
something holds behind them. -/
def Leads (Holds : Assembly → Prop) : List Statement → Assembly → Prop
  | [], assembly => Holds assembly
  | statement :: rest, assembly =>
      ∀ span, ∃ next, assembly.take ⟨statement, span⟩ = .ok next ∧ Leads Holds rest next

variable {Holds : Assembly → Prop}

/-- Statements lead on from where earlier ones lead to. -/
theorem leads_append {first second : List Statement} :
    Leads Holds (first ++ second) assembly ↔ Leads (Leads Holds second) first assembly := by
  induction first generalizing assembly with
  | nil => rfl
  | cons statement rest ih => simp only [List.cons_append, Leads, ih]

/-- What statements lead to has all that follows from it. -/
theorem Leads.imp {HoldsToo : Assembly → Prop} {statements : List Statement}
    (leads : Leads Holds statements assembly)
    (imp : ∀ assembly, Holds assembly → HoldsToo assembly) :
    Leads HoldsToo statements assembly := by
  induction statements generalizing assembly with
  | nil => exact imp assembly leads
  | cons statement rest ih =>
      intro span
      obtain ⟨next, taken, leads⟩ := leads span
      exact ⟨next, taken, ih leads⟩

/-- It is enough that every statement can be performed, if the number of the next one is no matter.
-/
theorem leads_singleton {statement : Statement}
    (performs : ∀ origin, ∃ next, assembly.perform origin statement = .ok next ∧
      ∀ taken, Holds { next with taken := taken }) : Leads Holds [statement] assembly := by
  intro span
  obtain ⟨next, performed, holds⟩ := performs ⟨assembly.taken + 1, span⟩
  refine ⟨{ next with taken := assembly.taken + 1 }, ?_, holds _⟩
  rw [take, performed]
  rfl

/-- Where statements lead, they run, whatever their spans are. -/
theorem Leads.run {statements : List Located}
    (leads : Leads Holds (statements.map Located.statement) assembly) :
    ∃ last, assembly.run statements = .ok last ∧ Holds last := by
  induction statements generalizing assembly with
  | nil => exact ⟨assembly, rfl, leads⟩
  | cons located rest ih =>
      obtain ⟨next, taken, leads⟩ := leads located.span
      obtain ⟨last, ran, holds⟩ := ih leads
      refine ⟨last, ?_, holds⟩
      rw [run_cons, taken]
      exact ran

end Assembly

end Lifeline
