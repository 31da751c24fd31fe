import Lifeline.Compile
import Lifeline.Proofs.Reading

/-! Spans are passed on and decide nothing. -/

namespace Lifeline

/-- What commutes with each item commutes with all of them. -/
theorem mapM_map_of_commutes {A B C D E F : Type} {act : A → Except C B} {other : D → Except E F}
    {change : A → D} {result : B → F} {cause : C → E}
    (commutes : ∀ item, other (change item) = ((act item).map result).mapError cause)
    (items : List A) :
    (items.map change).mapM other = ((items.mapM act).map (List.map result)).mapError cause := by
  induction items with
  | nil => rfl
  | cons item rest ih =>
      rw [List.map_cons, List.mapM_cons, List.mapM_cons, commutes, ih]
      cases act item with
      | error _ => rfl
      | ok value => cases rest.mapM act <;> rfl

/-- A bare line has no place. -/
theorem Line.span_bare (line : Line) : Line.span (Line.bare line) = .origin := by
  have placeless : ∀ token ∈ Line.bare line, token.span = .origin := by
    cases line with
    | nil => simp [Line.bare, Line.spanless, Line.tight]
    | cons first rest =>
        simp [Line.bare, Line.tight, Line.spanless, Token.tight, Token.spanless]
  rw [Line.span]
  split
  · next first last starts ends =>
      rw [placeless first (List.mem_of_mem_head? starts), placeless last
        (List.mem_of_mem_getLast? ends)]
      rfl
  · rfl

def Located.spanless (located : Located) : Located := { located with span := .origin }

namespace Document

def spanless (document : Document) : Document :=
  { document with statements := document.statements.map Located.spanless }

/-- Spans have no part in what entries make up. -/
theorem ofEntries_spanless (header : Header) (entries : List (Entry × Span)) :
    ofEntries header (entries.map fun entry => (entry.1, .origin)) =
      (ofEntries header entries).spanless := by
  have located (entry : Entry × Span) :
      locate? (entry.1, .origin) = (locate? entry).map Located.spanless := by
    obtain ⟨entry, span⟩ := entry
    cases entry <;> rfl
  have statements : (entries.map fun entry => (entry.1, Span.origin)).filterMap locate? =
      (entries.filterMap locate?).map Located.spanless := by
    rw [List.filterMap_map, List.map_filterMap]
    congr 1
    exact funext located
  rw [ofEntries, spanless, ofEntries, statements, List.foldl_map]

/-- Bare lines make up the same document without its places, or are refused for the same cause. -/
theorem ofLines_bare (header : Header) (lines : List Line) :
    ofLines header (lines.map Line.bare) =
      ((ofLines header lines).map spanless).mapError Refusal.bare := by
  let act (line : Line) := (Line.read line).map fun entry => (entry, Line.span line)
  let placeless (entry : Entry × Span) := (entry.1, Span.origin)
  have commutes (line : Line) :
      act (Line.bare line) = ((act line).map placeless).mapError Refusal.bare := by
    simp only [act, Line.read_bare, Line.span_bare]
    cases Line.read line <;> rfl
  rw [ofLines, mapM_map_of_commutes commutes, ofLines]
  cases lines.mapM act with
  | error refusal => rfl
  | ok entries => exact congrArg Except.ok (ofEntries_spanless header entries)

end Document

def Origin.spanless (origin : Origin) : Origin := { origin with span := .origin }

/-- The numbers of the statements that are to blame are kept without their places. -/
def Fault.spanless : Fault → Fault
  | .undefinedMarker origin target => .undefinedMarker origin.spanless target
  | .reservedName origin command name => .reservedName origin.spanless command name
  | .strayEnd origin => .strayEnd origin.spanless
  | .unclosedBlock opening mode => .unclosedBlock opening.spanless mode
  | .straySplit origin => .straySplit origin.spanless
  | .unsplittable origin mode _ => .unsplittable origin.spanless mode .origin

def Frame.spanless (frame : Frame) : Frame := { frame with opening := frame.opening.spanless }

namespace Assembly

/-- Only the open blocks of an assembly keep a place. -/
def spanless (assembly : Assembly) : Assembly :=
  { assembly with frames := assembly.frames.map Frame.spanless }

variable (assembly : Assembly)

theorem register_spanless (names : List String) :
    assembly.spanless.register names = (assembly.register names).spanless := rfl

/-- Spans have no part in a change of participants. -/
theorem change_spanless (change : Change) (names : List String) (mode : Terminator) :
    assembly.spanless.change change names mode = (assembly.change change names mode).spanless := by
  rw [Assembly.change, Assembly.change, spanless]
  cases assembly.roster.changeable change names <;> rfl

theorem speak_spanless (names : List String) (stage : Stage) :
    assembly.spanless.speak names stage = (assembly.speak names stage).spanless := by
  rw [speak, register_spanless, change_spanless, speak]
  rfl

/-- Spans have no part in a declaration. -/
theorem declare_spanless (origin : Origin) (command : Command) (names : List String) :
    assembly.spanless.declare origin.spanless command names =
      ((assembly.declare origin command names).map spanless).mapError Fault.spanless := by
  rw [declare, declare]
  cases names.find? Column.isReserved <;> rfl

/-- Spans have no part in whether a block is split. -/
theorem splitBlock_spanless (origin : Origin) (mode : BlockMode) (label : String) :
    assembly.spanless.splitBlock origin.spanless mode label =
      ((assembly.splitBlock origin mode label).map spanless).mapError Fault.spanless := by
  rw [splitBlock, splitBlock, spanless]
  cases assembly.frames with
  | nil => rfl
  | cons frame outer =>
      simp only [List.map_cons, Frame.spanless]
      split <;> rfl

/-- Spans have no part in whether a block is kept or dropped. -/
theorem closeBlock_spanless (origin : Origin) :
    assembly.spanless.closeBlock origin.spanless =
      ((assembly.closeBlock origin).map spanless).mapError Fault.spanless := by
  rw [closeBlock, closeBlock, spanless]
  cases assembly.frames with
  | nil => rfl
  | cons frame outer =>
      simp only [List.map_cons]
      split <;> rfl

/-- Spans have no part in a jump. -/
theorem jump_spanless (origin : Origin) (target : String) :
    assembly.spanless.jump origin.spanless target =
      ((assembly.jump origin target).map spanless).mapError Fault.spanless := by
  rw [jump, jump, spanless]
  split <;> rfl

/-- A statement does the same wherever it stands. -/
theorem perform_spanless (origin : Origin) (statement : Statement) :
    assembly.spanless.perform origin.spanless statement =
      ((assembly.perform origin statement).map spanless).mapError Fault.spanless := by
  cases statement with
  | define mentions => exact declare_spanless assembly origin .define _
  | enter mentions mode =>
      simp only [perform, declare_spanless]
      cases assembly.declare origin .enter (mentions.map Mention.name) with
      | error fault => rfl
      | ok next => exact congrArg Except.ok (change_spanless next .enter _ mode)
  | leave mentions mode =>
      simp only [perform, declare_spanless]
      cases assembly.declare origin .leave (mentions.map Mention.name) with
      | error fault => rfl
      | ok next => exact congrArg Except.ok (change_spanless next .leave _ mode)
  | message sender receiver arrow label =>
      simp only [perform, message, speak_spanless, change_spanless]
      rfl
  | note position style mentions label =>
      simp only [perform, note, speak_spanless]
      rfl
  | mark name => rfl
  | jump target => exact jump_spanless assembly origin target
  | openBlock mode label => rfl
  | splitBlock mode label => exact splitBlock_spanless assembly origin mode label
  | closeBlock => exact closeBlock_spanless assembly origin

/-- Spans have no part in the count of statements. -/
theorem take_spanless (located : Located) :
    assembly.spanless.take located.spanless =
      ((assembly.take located).map spanless).mapError Fault.spanless := by
  have performed :=
    perform_spanless assembly ⟨assembly.taken + 1, located.span⟩ located.statement
  rw [take, take]
  change Except.map _ (assembly.spanless.perform
    (Origin.spanless ⟨assembly.taken + 1, located.span⟩) located.statement) = _
  rw [performed]
  cases assembly.perform ⟨assembly.taken + 1, located.span⟩ located.statement <;> rfl

/-- Statements without spans lead to the assembly without spans, or to the same fault. -/
theorem run_spanless (statements : List Located) :
    assembly.spanless.run (statements.map Located.spanless) =
      ((assembly.run statements).map spanless).mapError Fault.spanless := by
  induction statements generalizing assembly with
  | nil => rfl
  | cons located rest ih =>
      rw [run, List.map_cons, List.foldlM_cons, take_spanless, run, List.foldlM_cons]
      cases assembly.take located with
      | error fault => rfl
      | ok next => exact ih next

/-- Spans have no part in the diagram. -/
theorem finish_spanless (header : Header) :
    assembly.spanless.finish header = (assembly.finish header).mapError Fault.spanless := by
  rw [finish, change_spanless, finish]
  cases opened : assembly.frames with
  | nil =>
      have closed : assembly.spanless.frames = [] := by rw [spanless, opened, List.map_nil]
      rw [closed]
      rfl
  | cons frame outer =>
      have inside : assembly.spanless.frames = frame.spanless :: outer.map Frame.spanless := by
        rw [spanless, opened, List.map_cons]
      rw [inside]
      rfl

end Assembly

/-- The diagram of a document does not depend on the places of its statements. -/
theorem Document.assemble_spanless (document : Document) :
    document.spanless.assemble = document.assemble.mapError Fault.spanless := by
  have started : (({} : Assembly).run document.spanless.statements) =
      ((({} : Assembly).run document.statements).map Assembly.spanless).mapError Fault.spanless :=
    Assembly.run_spanless {} document.statements
  rw [assemble, started, assemble]
  cases Assembly.run {} document.statements with
  | error fault => rfl
  | ok assembly => exact assembly.finish_spanless document.header

def Label.spanless (label : Label) : Label := { label with span := .origin }

/-- The message, the code and the help are kept, and what the labels say. -/
def Diagnostic.spanless (diagnostic : Diagnostic) : Diagnostic :=
  { diagnostic with labels := diagnostic.labels.map Label.spanless }

/-- A fault without spans has the same diagnostic but for the labels. -/
theorem Fault.diagnostic_spanless (fault : Fault) :
    fault.spanless.diagnostic.spanless = fault.diagnostic.spanless := by
  cases fault <;> rfl

/-- A bare refusal has the same diagnostic but for the labels. -/
theorem Refusal.diagnostic_bare (refusal : Refusal) :
    refusal.bare.diagnostic.spanless = refusal.diagnostic.spanless := by
  obtain ⟨line, cause⟩ := refusal
  cases cause <;> simp [bare, diagnostic, Misreading.spanless, Diagnostic.spanless, Label.spanless]

/-- This is what lines come to: their diagram, or what is wrong with them, wherever it stands. -/
def outcomeOf (header : Header) (lines : List Line) : Except Diagnostic Diagram :=
  match Document.ofLines header lines with
  | .error refusal => .error refusal.diagnostic.spanless
  | .ok document => document.assemble.mapError fun fault => fault.diagnostic.spanless

/-- This is what a source comes to: its diagram, or what is wrong with it, wherever it stands. -/
def outcome (header : Header) (source : String) : Except Diagnostic Diagram :=
  (compile header source).mapError fun complaint => complaint.diagnostic.spanless

/-- Bare lines come to the same. -/
theorem outcomeOf_bare (header : Header) (lines : List Line) :
    outcomeOf header (lines.map Line.bare) = outcomeOf header lines := by
  rw [outcomeOf, Document.ofLines_bare, outcomeOf]
  cases Document.ofLines header lines with
  | error refusal => exact congrArg Except.error refusal.diagnostic_bare
  | ok document =>
      simp only [Except.map, Except.mapError, Document.assemble_spanless]
      cases document.assemble with
      | error fault => exact congrArg Except.error fault.diagnostic_spanless
      | ok diagram => rfl

/-- The outcome of a source that is cut is that of its lines. -/
theorem outcome_of_tokenize {header : Header} {source : String} {tokens : List Token}
    (cut : tokenize source = .ok tokens) :
    outcome header source = outcomeOf header (Line.split tokens) := by
  simp only [outcome, compile, parse, cut, outcomeOf]
  cases Document.ofLines header (Line.split tokens) with
  | error refusal => rfl
  | ok document =>
      simp only [Except.mapError]
      cases document.assemble <;> rfl

/-- The outcome of a source that is left open is the open quotation. -/
theorem outcome_of_quotation {header : Header} {source : String} {quotation : OpenQuotation}
    (cut : tokenize source = .error quotation) :
    outcome header source = .error quotation.diagnostic.spanless := by
  rw [outcome, compile, parse, cut]
  rfl

end Lifeline
