import Mathlib.Data.Finset.Insert
import Lifeline.Proofs.Moves

/-! A scan that knows the open blocks and the marks finds out whether a document makes a diagram. -/

namespace Lifeline

/-- A scan remembers how and where the open blocks were opened, the innermost first, and the names
of the marks, those in dropped blocks included. -/
structure Scan where
  opened : List (BlockMode × Origin) := []
  marks : Finset String := ∅

/-- A finding blames one statement and may point at the opening of the block around it. -/
structure Finding where
  code : Code
  origin : Origin
  opening : Option Span := none
  deriving DecidableEq

/-- A diagnostic tells a finding by its code, by the number behind its message, and by a primary
label on the statement; a secondary label stands on the opening of the block. -/
def Finding.Tells (finding : Finding) (diagnostic : Diagnostic) : Prop :=
  diagnostic.code = some finding.code ∧
    (∃ reason, diagnostic.message =
      reason ++ (" (statement " ++ toString finding.origin.number ++ ")")) ∧
    diagnostic.labels.map (fun label => (label.span, label.primary)) =
      (finding.origin.span, true) :: finding.opening.toList.map fun span => (span, false)

/-- This is the finding that a fault reports. -/
def Fault.finding : Fault → Finding
  | .undefinedMarker origin _ => ⟨.undefinedMarker, origin, none⟩
  | .reservedName origin _ _ => ⟨.reservedName, origin, none⟩
  | .strayEnd origin => ⟨.strayEnd, origin, none⟩
  | .unclosedBlock opening _ => ⟨.unclosedBlock, opening, none⟩
  | .straySplit origin => ⟨.misplacedSplit, origin, none⟩
  | .unsplittable origin _ opening => ⟨.misplacedSplit, origin, some opening⟩

/-- The diagnostic of a fault tells the finding of the fault. -/
theorem Fault.tells (fault : Fault) : fault.finding.Tells fault.diagnostic := by
  cases fault <;> exact ⟨rfl, ⟨_, rfl⟩, rfl⟩

namespace Scan

/-- This is what is wrong with a statement that comes next. -/
def complaint? (scan : Scan) (origin : Origin) : Statement → Option Finding
  | .define mentions => reserved mentions
  | .enter mentions _ => reserved mentions
  | .leave mentions _ => reserved mentions
  | .jump target =>
      if target = "" ∨ target ∈ scan.marks then none else some ⟨.undefinedMarker, origin, none⟩
  | .splitBlock _ _ =>
      match scan.opened with
      | [] => some ⟨.misplacedSplit, origin, none⟩
      | (mode, opening) :: _ =>
          if mode = .alternative then none
          else some ⟨.misplacedSplit, origin, some opening.span⟩
  | .closeBlock => if scan.opened = [] then some ⟨.strayEnd, origin, none⟩ else none
  | .message _ _ _ _ => none
  | .note _ _ _ _ => none
  | .mark _ => none
  | .openBlock _ _ => none
where
  /-- The two brackets cannot be defined, begun or ended. -/
  reserved (mentions : List Mention) : Option Finding :=
    if ∃ mention ∈ mentions, mention.name = "[" ∨ mention.name = "]" then
      some ⟨.reservedName, origin, none⟩
    else none

/-- A split leaves the block as it was opened, and so it can be split again. -/
def after (scan : Scan) (origin : Origin) : Statement → Scan
  | .mark name => { scan with marks := insert name scan.marks }
  | .openBlock mode _ => { scan with opened := (mode, origin) :: scan.opened }
  | .closeBlock => { scan with opened := scan.opened.tail }
  | _ => scan

/-- The first statement that something is wrong with is to blame; if there is none, then it is the
innermost block that is still open. Statements are numbered on from the given number. -/
def verdict (scan : Scan) (number : Nat) : List Located → Option Finding
  | [] => scan.opened.head?.map fun block => ⟨.unclosedBlock, block.2, none⟩
  | located :: rest =>
      match scan.complaint? ⟨number, located.span⟩ located.statement with
      | some finding => some finding
      | none => (scan.after ⟨number, located.span⟩ located.statement).verdict (number + 1) rest

end Scan

namespace Assembly

variable {assembly next : Assembly} {scan : Scan}

/-- A scan keeps up with an assembly. -/
structure Scanned (assembly : Assembly) (scan : Scan) : Prop where
  opened : assembly.frames.map (fun frame => (frame.mode, frame.opening)) = scan.opened
  marks : assembly.markers.toFinset = scan.marks

/-- A scan depends on the open blocks and on the marks only. -/
theorem Scanned.congr (scanned : assembly.Scanned scan) (frames : next.frames = assembly.frames)
    (markers : next.markers = assembly.markers) : next.Scanned scan :=
  ⟨by rw [frames, scanned.opened], by rw [markers, scanned.marks]⟩

/-- The result of one statement is a fault that tells the complaint, or else an assembly that the
scan keeps up with. -/
def Answers (scan : Scan) (origin : Origin) (statement : Statement)
    (result : Except Fault Assembly) : Prop :=
  match scan.complaint? origin statement with
  | some finding => ∃ fault, result = .error fault ∧ fault.finding = finding
  | none => ∃ next, result = .ok next ∧ next.Scanned (scan.after origin statement)

/-- A statement that is complained of fails with the complaint. -/
theorem answers_of_complaint {origin : Origin} {statement : Statement} {fault : Fault}
    {result : Except Fault Assembly} (failed : result = .error fault)
    (complaint : scan.complaint? origin statement = some fault.finding) :
    Answers scan origin statement result := by
  rw [Answers, complaint]
  exact ⟨fault, failed, rfl⟩

/-- A statement that is not complained of is carried out. -/
theorem answers_of_silence {origin : Origin} {statement : Statement}
    {result : Except Fault Assembly} (silent : scan.complaint? origin statement = none)
    (passed : result = .ok next) (scanned : next.Scanned (scan.after origin statement)) :
    Answers scan origin statement result := by
  rw [Answers, silent]
  exact ⟨next, passed, scanned⟩

/-- Whatever a command does with the participants that it lists, it fails exactly if one of them is
called by a bracket. -/
theorem answers_declare (scanned : assembly.Scanned scan) (origin : Origin) (command : Command)
    {statement : Statement} {mentions : List Mention} {result : Except Fault Assembly}
    (complains : scan.complaint? origin statement = Scan.complaint?.reserved origin mentions)
    (goes : scan.after origin statement = scan)
    (fails : ∀ fault, assembly.declare origin command (mentions.map Mention.name) = .error fault →
      result = .error fault)
    (passes : ∀ middle, assembly.declare origin command (mentions.map Mention.name) = .ok middle →
      ∃ next, result = .ok next ∧ next.frames = middle.frames ∧ next.markers = middle.markers) :
    Answers scan origin statement result := by
  cases found : (mentions.map Mention.name).find? Column.isReserved with
  | some name =>
      obtain ⟨mention, listed, same⟩ := List.mem_map.mp (List.mem_of_find?_eq_some found)
      have bracket : mention.name = "[" ∨ mention.name = "]" :=
        Column.isReserved_iff.mp (same ▸ List.find?_some found)
      have refused : assembly.declare origin command (mentions.map Mention.name) =
          .error (.reservedName origin command name) := by
        rw [declare, found]
      rw [Scan.complaint?.reserved, if_pos ⟨mention, listed, bracket⟩] at complains
      exact answers_of_complaint (fails _ refused) complains
  | none =>
      have free : ¬∃ mention ∈ mentions, mention.name = "[" ∨ mention.name = "]" := by
        rintro ⟨mention, listed, bracket⟩
        exact List.find?_eq_none.mp found mention.name (List.mem_map_of_mem listed)
          (Column.isReserved_iff.mpr bracket)
      have accepted : assembly.declare origin command (mentions.map Mention.name) =
          .ok (assembly.register (mentions.map Mention.name)) := by
        rw [declare, found]
      obtain ⟨next, passed, frames, markers⟩ := passes _ accepted
      rw [Scan.complaint?.reserved, if_neg free] at complains
      refine answers_of_silence complains passed ?_
      rw [goes]
      exact scanned.congr frames markers

/-- A change behind a declaration neither adds a fault nor takes one away. -/
theorem answers_declare_change (scanned : assembly.Scanned scan) (origin : Origin)
    (command : Command) (change : Change) {statement : Statement} {mentions : List Mention}
    (mode : Terminator)
    (complains : scan.complaint? origin statement = Scan.complaint?.reserved origin mentions)
    (goes : scan.after origin statement = scan) :
    Answers scan origin statement
      ((assembly.declare origin command (mentions.map Mention.name)).map fun middle =>
        middle.change change (mentions.map Mention.name) mode) := by
  refine answers_declare scanned origin command complains goes ?_ ?_
  · intro fault refused
    rw [refused]
    rfl
  · intro middle accepted
    rw [accepted]
    exact ⟨_, rfl, middle.frames_change _ _ _, middle.markers_change _ _ _⟩

/-- A jump fails exactly if its mark is still missing. -/
theorem answers_jump (scanned : assembly.Scanned scan) (origin : Origin) (target : String) :
    Answers scan origin (.jump target) (assembly.jump origin target) := by
  have same : (target = "" ∨ target ∈ assembly.markers) ↔ (target = "" ∨ target ∈ scan.marks) := by
    rw [← scanned.marks, List.mem_toFinset]
  by_cases known : target = "" ∨ target ∈ scan.marks
  · have passed : assembly.jump origin target = .ok (assembly.place (.jump target)) :=
      if_pos (same.mpr known)
    exact answers_of_silence (if_pos known) passed (scanned.congr rfl rfl)
  · have failed : assembly.jump origin target = .error (.undefinedMarker origin target) :=
      if_neg (known ∘ same.mp)
    exact answers_of_complaint failed (if_neg known)

/-- A split fails exactly if there is no block around it, or one that cannot be split. -/
theorem answers_splitBlock (scanned : assembly.Scanned scan) (origin : Origin) (mode : BlockMode)
    (label : String) :
    Answers scan origin (.splitBlock mode label) (assembly.splitBlock origin mode label) := by
  have opened := scanned.opened
  unfold splitBlock
  cases inside : assembly.frames with
  | nil =>
      rw [inside, List.map_nil] at opened
      refine answers_of_complaint rfl ?_
      rw [Scan.complaint?, ← opened]
      rfl
  | cons frame outer =>
      rw [inside, List.map_cons] at opened
      by_cases alternative : frame.mode = .alternative
      · have silent : scan.complaint? origin (.splitBlock mode label) = none := by
          rw [Scan.complaint?, ← opened]
          exact if_pos alternative
        have splittable : frame.mode.isSplittable = true := by
          rw [alternative]
          rfl
        exact answers_of_silence silent (if_pos splittable) ⟨opened, scanned.marks⟩
      · have solid : ¬frame.mode.isSplittable = true := by
          cases stated : frame.mode with
          | alternative => exact absurd stated alternative
          | otherwise => decide
          | loop => decide
        refine answers_of_complaint (if_neg solid) ?_
        rw [Scan.complaint?, ← opened]
        exact if_neg alternative

/-- An end fails exactly if there is no block to close. -/
theorem answers_closeBlock (scanned : assembly.Scanned scan) (origin : Origin) :
    Answers scan origin .closeBlock (assembly.closeBlock origin) := by
  have opened := scanned.opened
  unfold closeBlock
  cases inside : assembly.frames with
  | nil =>
      rw [inside, List.map_nil] at opened
      exact answers_of_complaint rfl (if_pos opened.symm)
  | cons frame outer =>
      rw [inside, List.map_cons] at opened
      have silent : scan.complaint? origin .closeBlock = none := by
        rw [Scan.complaint?, ← opened]
        rfl
      have left : outer.map (fun frame => (frame.mode, frame.opening)) = scan.opened.tail := by
        rw [← opened, List.tail_cons]
      refine answers_of_silence silent rfl ?_
      split
      · exact ⟨left, scanned.marks⟩
      · exact ⟨left, scanned.marks⟩

/-- A scan tells of every statement whether it can be carried out. -/
theorem answers_perform (scanned : assembly.Scanned scan) (origin : Origin)
    (statement : Statement) :
    Answers scan origin statement (assembly.perform origin statement) := by
  cases statement with
  | define mentions =>
      refine answers_declare scanned origin .define rfl rfl (fun fault refused => refused) ?_
      intro middle accepted
      exact ⟨middle, accepted, rfl, rfl⟩
  | enter mentions mode => exact answers_declare_change scanned origin .enter .enter mode rfl rfl
  | leave mentions mode => exact answers_declare_change scanned origin .leave .leave mode rfl rfl
  | message sender receiver arrow label =>
      refine answers_of_silence rfl rfl (scanned.congr ?_ ?_)
      · simp [message]
      · simp [message]
  | note position style mentions label =>
      refine answers_of_silence rfl rfl (scanned.congr ?_ ?_)
      · simp [note]
      · simp [note]
  | mark name =>
      refine answers_of_silence rfl rfl ⟨scanned.opened, ?_⟩
      rw [Scan.after, ← scanned.marks]
      exact List.toFinset_cons
  | jump target => exact answers_jump scanned origin target
  | openBlock mode label =>
      refine answers_of_silence rfl rfl ⟨?_, scanned.marks⟩
      rw [Scan.after, ← scanned.opened]
      rfl
  | splitBlock mode label => exact answers_splitBlock scanned origin mode label
  | closeBlock => exact answers_closeBlock scanned origin

/-- A block that is still open at the end is a fault of its opening. -/
theorem finish_scanned (scanned : assembly.Scanned scan) (header : Header) :
    match scan.verdict (assembly.taken + 1) [] with
    | some finding => ∃ fault, assembly.finish header = .error fault ∧ fault.finding = finding
    | none => ∃ diagram, assembly.finish header = .ok diagram := by
  rw [Scan.verdict, ← scanned.opened, finish]
  cases assembly.frames with
  | nil => exact ⟨_, rfl⟩
  | cons frame outer => exact ⟨_, rfl, rfl⟩

/-- The first complaint of a scan is the fault of the run, also at the end. -/
theorem run_scanned (scanned : assembly.Scanned scan) (statements : List Located)
    (header : Header) :
    match scan.verdict (assembly.taken + 1) statements with
    | some finding => ∃ fault,
        ((assembly.run statements).bind fun last => last.finish header) = .error fault ∧
          fault.finding = finding
    | none => ∃ diagram,
        ((assembly.run statements).bind fun last => last.finish header) = .ok diagram := by
  -- The scan changes with the assembly, and so does the number of the statement that comes next.
  induction statements generalizing assembly scan with
  | nil => exact finish_scanned scanned header
  | cons located rest ih =>
      have answered :=
        answers_perform scanned ⟨assembly.taken + 1, located.span⟩ located.statement
      rw [Scan.verdict, run_cons, take]
      unfold Answers at answered
      split at answered
      · next finding complaint =>
          obtain ⟨fault, failed, same⟩ := answered
          rw [failed]
          exact ⟨fault, rfl, same⟩
      · next silent =>
          obtain ⟨next, passed, kept⟩ := answered
          have recorded : Scanned { next with taken := assembly.taken + 1 }
              (scan.after ⟨assembly.taken + 1, located.span⟩ located.statement) :=
            ⟨kept.opened, kept.marks⟩
          rw [passed]
          exact ih recorded

end Assembly

/-- A document makes a diagram exactly if the scan finds nothing wrong with it. Otherwise it fails
with the finding: at the first statement that something is wrong with, or at the opening of the
innermost block that is never closed. -/
theorem assemble_verdict (document : Document) :
    match Scan.verdict {} 1 document.statements with
    | some finding => ∃ fault, document.assemble = .error fault ∧ finding.Tells fault.diagnostic
    | none => ∃ diagram, document.assemble = .ok diagram := by
  have start : Assembly.Scanned {} {} := ⟨rfl, rfl⟩
  have decided := Assembly.run_scanned start document.statements document.header
  split
  · next finding found =>
      rw [found] at decided
      obtain ⟨fault, failed, rfl⟩ := decided
      exact ⟨fault, failed, fault.tells⟩
  · next found =>
      rw [found] at decided
      exact decided

/-- A loop cannot be split; the finding points at the split and at the opening of the loop. -/
example :
    Scan.verdict {} 1
        [⟨.openBlock .loop "", .between 0 6⟩, ⟨.splitBlock .otherwise "", .between 7 11⟩] =
      some ⟨.misplacedSplit, ⟨2, .between 7 11⟩, some (.between 0 6)⟩ := by
  decide

end Lifeline
