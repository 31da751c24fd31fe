import Lifeline.Compile
import Lifeline.Failure
import Lifeline.Proofs.Growth
import Lifeline.Proofs.Places

/-! Every label of a diagnostic covers a part of its source. -/

namespace Lifeline

section MapM

variable {Reason A B : Type} {act : A → Except Reason B} {items : List A}

/-- The reason for which a list fails is that of one of its items. -/
theorem exists_of_mapM_eq_error {reason : Reason} (failed : items.mapM act = .error reason) :
    ∃ item ∈ items, act item = .error reason := by
  induction items with
  | nil => contradiction
  | cons item rest ih =>
      rw [List.mapM_cons] at failed
      cases result : act item with
      | error cause =>
          rw [result] at failed
          obtain rfl : cause = reason := Except.error.inj failed
          exact ⟨item, List.mem_cons_self, result⟩
      | ok value =>
          rw [result] at failed
          cases others : rest.mapM act with
          | error cause =>
              rw [others] at failed
              obtain rfl : cause = reason := Except.error.inj failed
              obtain ⟨found, member, refused⟩ := ih others
              exact ⟨found, List.mem_cons_of_mem item member, refused⟩
          | ok values =>
              rw [others] at failed
              contradiction

/-- Every result of a list is that of one of its items. -/
theorem exists_of_mem_of_mapM_eq_ok {values : List B} (passed : items.mapM act = .ok values)
    {value : B} (member : value ∈ values) : ∃ item ∈ items, act item = .ok value := by
  induction items generalizing values with
  | nil =>
      obtain rfl : [] = values := Except.ok.inj passed
      contradiction
  | cons item rest ih =>
      rw [List.mapM_cons] at passed
      obtain ⟨first, read, passed⟩ := except_bind_eq_ok.mp passed
      obtain ⟨others, readRest, passed⟩ := except_bind_eq_ok.mp passed
      obtain rfl : first :: others = values := Except.ok.inj passed
      rcases List.mem_cons.mp member with rfl | behind
      · exact ⟨item, List.mem_cons_self, read⟩
      · obtain ⟨found, inside, result⟩ := ih readRest behind
        exact ⟨found, List.mem_cons_of_mem item inside, result⟩

end MapM

theorem except_map_eq_error {Reason A B : Type} {function : A → B} {result : Except Reason A}
    {reason : Reason} : result.map function = .error reason ↔ result = .error reason := by
  cases result <;> simp [Except.map]

/-- This is the word that a misreading blames, if it blames one. -/
def Misreading.word? : Misreading → Option Token
  | .unknownTerminator word => some word
  | .strayWord word => some word
  | .noStatement => none
  | .noTerminator => none
  | .noteArity _ _ _ => none

namespace Line

/-- A form blames one of its own words. -/
theorem word_of_readForm {keyword : Keyword} {arguments : List Token} {cause : Misreading}
    (failed : readForm keyword arguments = .error cause) :
    ∀ word ∈ cause.word?, word ∈ arguments := by
  cases keyword with
  | terminators =>
      replace failed := except_map_eq_error.mp failed
      cases arguments with
      | nil =>
          obtain rfl := Except.error.inj failed
          simp [Misreading.word?]
      | cons first rest =>
          rw [readTerminators] at failed
          split at failed
          · contradiction
          · obtain rfl := Except.error.inj failed
            simp [Misreading.word?]
  | otherwise =>
      replace failed := except_map_eq_error.mp failed
      cases arguments with
      | nil => contradiction
      | cons first rest =>
          rw [readOtherwise] at failed
          split at failed
          · contradiction
          · split at failed
            · contradiction
            · obtain rfl := Except.error.inj failed
              simp [Misreading.word?]
  | note style =>
      replace failed := except_map_eq_error.mp failed
      cases arguments with
      | nil => contradiction
      | cons first rest =>
          rw [readNote] at failed
          split at failed
          · dsimp only at failed
            split at failed
            · contradiction
            · obtain rfl := Except.error.inj failed
              simp [Misreading.word?]
          · contradiction
  | leave =>
      rw [readForm] at failed
      split at failed <;> contradiction
  | _ => contradiction

/-- A refusal is about its own line, and blames one of the words in it or none. -/
theorem refusal_of_read {line : Line} {refusal : Refusal} (refused : read line = .error refusal) :
    refusal.line = line ∧ ∀ word ∈ refusal.cause.word?, word ∈ line := by
  rw [read] at refused
  cases found : readKeyword line with
  | error cause =>
      rw [found] at refused
      obtain rfl := Except.error.inj refused
      cases line with
      | nil => contradiction
      | cons first arguments =>
          rw [readKeyword] at found
          split at found
          · exact ⟨rfl, fun word blamed =>
              List.mem_cons_of_mem first (word_of_readForm found word blamed)⟩
          · contradiction
  | ok entry =>
      rw [found] at refused
      cases entry with
      | some entry => contradiction
      | none =>
          dsimp only at refused
          split at refused
          · contradiction
          · obtain rfl := Except.error.inj refused
            exact ⟨rfl, by simp [Misreading.word?]⟩

end Line

/-- The labels of a refusal stand on its line or on the word that it blames. -/
theorem Refusal.span_of_mem_labels {refusal : Refusal} {label : Label}
    (member : label ∈ refusal.diagnostic.labels) :
    label.span = Line.span refusal.line ∨ ∃ word ∈ refusal.cause.word?, label.span = word.span := by
  obtain ⟨line, cause⟩ := refusal
  cases cause with
  | noStatement => exact Or.inl (by rw [List.mem_singleton.mp member])
  | noTerminator => exact Or.inl (by rw [List.mem_singleton.mp member])
  | unknownTerminator word => exact Or.inr ⟨word, rfl, by rw [List.mem_singleton.mp member]⟩
  | strayWord word =>
      rcases List.mem_cons.mp member with rfl | remark
      · exact Or.inr ⟨word, rfl, rfl⟩
      · exact Or.inl (by rw [List.mem_singleton.mp remark])
  | noteArity style arity given => exact Or.inl (by rw [List.mem_singleton.mp member])

/-- The message of a refusal ends with the text of its line. -/
theorem Refusal.exists_message (refusal : Refusal) :
    ∃ front, refusal.diagnostic.message = front ++ Line.text refusal.line := by
  obtain ⟨line, cause⟩ := refusal
  cases cause <;> exact ⟨_, rfl⟩

/-- Lines are refused for one of them. -/
theorem Document.exists_of_ofLines_eq_error {header : Header} {lines : List Line}
    {refusal : Refusal} (refused : ofLines header lines = .error refusal) :
    ∃ line ∈ lines, Line.read line = .error refusal := by
  obtain ⟨line, member, failed⟩ := exists_of_mapM_eq_error (except_map_eq_error.mp refused)
  exact ⟨line, member, except_map_eq_error.mp failed⟩

/-- Every statement of a document stands where its line does. -/
theorem Document.exists_of_mem_statements {header : Header} {lines : List Line}
    {document : Document} (read : ofLines header lines = .ok document) {located : Located}
    (member : located ∈ document.statements) :
    ∃ line ∈ lines, Line.read line = .ok (.statement located.statement) ∧
      located.span = Line.span line := by
  obtain ⟨entries, readAll, rfl⟩ := except_map_eq_ok.mp read
  obtain ⟨entry, inside, found⟩ := List.mem_filterMap.mp member
  obtain ⟨line, stands, readLine⟩ := exists_of_mem_of_mapM_eq_ok readAll inside
  obtain ⟨said, reads, rfl⟩ := except_map_eq_ok.mp readLine
  refine ⟨line, stands, ?_⟩
  cases said with
  | title text => contradiction
  | terminators mode => contradiction
  | statement statement =>
      obtain rfl := Option.some.inj found
      exact ⟨reads, rfl⟩

namespace Scan

/-- What a complaint points at beside its statement is the opening of a block that is open. -/
theorem opening_of_complaint {scan : Scan} {origin : Origin} {statement : Statement}
    {finding : Finding} (complaint : scan.complaint? origin statement = some finding) :
    ∀ opening ∈ finding.opening, ∃ block ∈ scan.opened, block.2.span = opening := by
  have nothing {code : Code} (same : some ⟨code, origin, none⟩ = some finding) :
      ∀ opening ∈ finding.opening, ∃ block ∈ scan.opened, block.2.span = opening := by
    obtain rfl := Option.some.inj same
    simp
  cases statement with
  | define mentions => exact nothing (Option.ite_none_right_eq_some.mp complaint).2
  | enter mentions mode => exact nothing (Option.ite_none_right_eq_some.mp complaint).2
  | leave mentions mode => exact nothing (Option.ite_none_right_eq_some.mp complaint).2
  | jump target => exact nothing (Option.ite_none_left_eq_some.mp complaint).2
  | closeBlock => exact nothing (Option.ite_none_right_eq_some.mp complaint).2
  | splitBlock mode label =>
      rw [complaint?] at complaint
      split at complaint
      · exact nothing complaint
      · next outermost opening outer opened =>
          obtain ⟨_, same⟩ := Option.ite_none_left_eq_some.mp complaint
          obtain rfl := Option.some.inj same
          intro span pointed
          obtain rfl := Option.some.inj pointed
          exact ⟨(outermost, opening), by simp [opened], rfl⟩
  | message sender receiver arrow label => contradiction
  | note position style mentions label => contradiction
  | mark name => contradiction
  | openBlock mode label => contradiction

/-- A scan points at what it has still to see and at the openings of the blocks that are open. -/
theorem spans_of_verdict (Known : Span → Prop) {scan : Scan} {number : Nat}
    {statements : List Located} {finding : Finding}
    (found : scan.verdict number statements = some finding)
    (opened : ∀ block ∈ scan.opened, Known block.2.span)
    (stated : ∀ located ∈ statements, Known located.span) :
    ∀ span ∈ finding.origin.span :: finding.opening.toList, Known span := by
  induction statements generalizing scan number with
  | nil =>
      obtain ⟨block, innermost, rfl⟩ := Option.map_eq_some_iff.mp found
      simpa using opened block (List.mem_of_head? innermost)
  | cons located rest ih =>
      rw [verdict] at found
      split at found
      · next blamed complaint =>
          obtain rfl := Option.some.inj found
          intro span pointed
          rcases List.mem_cons.mp pointed with rfl | beside
          · rw [origin_of_complaint complaint]
            exact stated located List.mem_cons_self
          · obtain ⟨block, member, rfl⟩ :=
              opening_of_complaint complaint span (Option.mem_toList.mp beside)
            exact opened block member
      · next silent =>
          refine ih found ?_ fun later member => stated later (List.mem_cons_of_mem located member)
          intro block member
          rcases opened_after member with old | new
          · exact opened block old
          · rw [new]
            exact stated located List.mem_cons_self

end Scan

/-- The labels of a fault stand where its finding points. -/
theorem Fault.span_of_mem_labels {fault : Fault} {label : Label}
    (member : label ∈ fault.diagnostic.labels) :
    label.span ∈ fault.finding.origin.span :: fault.finding.opening.toList := by
  obtain ⟨_, _, labels⟩ := fault.tells
  have spans := congrArg (List.map Prod.fst) labels
  simp only [List.map_map, List.map_cons, Function.comp_def, List.map_id'] at spans
  rw [← spans]
  exact List.mem_map_of_mem member

/-- The labels of a fault stand on statements of the document. -/
theorem Document.span_of_assemble_eq_error {document : Document} {fault : Fault}
    (failed : document.assemble = .error fault) :
    ∀ label ∈ fault.diagnostic.labels, ∃ located ∈ document.statements,
      label.span = located.span := by
  intro label member
  have start : Assembly.Scanned {} {} := ⟨rfl, rfl⟩
  have decided := Assembly.run_scanned start document.statements document.header
  have failedToo : ((Assembly.run {} document.statements).bind fun last =>
      last.finish document.header) = .error fault := failed
  split at decided
  · next finding found =>
      obtain ⟨other, same, rfl⟩ := decided
      obtain rfl : other = fault := Except.error.inj (same.symm.trans failedToo)
      exact Scan.spans_of_verdict (fun span => ∃ located ∈ document.statements, span = located.span)
        found (by simp) (fun located stands => ⟨located, stands, rfl⟩) label.span
        (Fault.span_of_mem_labels member)
  · obtain ⟨diagram, made⟩ := decided
    rw [failedToo] at made
    contradiction

/-- An unclosed quotation reaches from its mark to the end of the source. -/
theorem OpenQuotation.span_of_tokenize {source : String} {quotation : OpenQuotation}
    (unclosed : tokenize source = .error quotation) :
    quotation.span.Inside source ∧ quotation.span.stop = source.utf8ByteSize := by
  have tiled := Lexeme.flatMap_text_append_scan source.toList
  rw [tokenize] at unclosed
  split at unclosed
  · contradiction
  · next lexemes mark rest scanned =>
      obtain rfl := Except.error.inj unclosed
      rw [scanned] at tiled
      have ended : Text.byteCount (lexemes.flatMap Lexeme.text) + Text.byteCount (mark :: rest) =
          source.utf8ByteSize := by
        rw [← Text.byteCount_toList, ← tiled, Text.byteCount_append]
      refine ⟨⟨?_, Text.isValid_byteCount tiled.symm, ?_⟩, ended⟩
      · have some := Text.byteCount_pos (List.cons_ne_nil mark rest)
        exact Nat.lt_add_of_pos_right some
      · change String.Pos.Raw.IsValid source ⟨_ + Text.byteCount (mark :: rest)⟩
        rw [ended]
        exact String.Pos.Raw.isValid_rawEndPos

/-- The phases in which a source can be refused. -/
inductive Phase where
  | cutting
  | reading
  | assembling
  deriving DecidableEq

/-- This is the phase in which a code is found. -/
def Code.phase : Code → Phase
  | .unclosedQuote => .cutting
  | .unknownCommand => .reading
  | .blockCommand => .reading
  | .terminatorMode => .reading
  | .noteArity => .reading
  | .undefinedMarker => .assembling
  | .reservedName => .assembling
  | .strayEnd => .assembling
  | .unclosedBlock => .assembling
  | .misplacedSplit => .assembling

/-- What a diagnostic is about hangs on the phase in which the source is refused: a quotation up to
the end of the source, a line whose text ends the message, or lines that say statements. -/
def Diagnostic.IsAbout (diagnostic : Diagnostic) (source : String) : Phase → Prop
  | .cutting => ∀ label ∈ diagnostic.labels, label.span.stop = source.utf8ByteSize
  | .reading => ∃ line, Line.IsLineOf line source ∧
      (∀ label ∈ diagnostic.labels, label.span.Within (Line.span line)) ∧
        ∃ front, diagnostic.message = front ++ Line.text line
  | .assembling => ∀ label ∈ diagnostic.labels, ∃ line statement, Line.IsLineOf line source ∧
      Line.read line = .ok (.statement statement) ∧ label.span = Line.span line

/-- A diagnostic points into a source if its first label is its only primary one and all labels are
inside the source, if it tells by a code what it is about, and if a help or a further label says
more about it. -/
structure Diagnostic.PointsInto (diagnostic : Diagnostic) (source : String) : Prop where
  about : ∃ code, diagnostic.code = some code ∧ diagnostic.IsAbout source code.phase
  further : diagnostic.help.isSome = true ∨ ∃ label ∈ diagnostic.labels, label.primary = false
  primary : ∃ first others, diagnostic.labels = first :: others ∧ first.primary = true ∧
    ∀ label ∈ others, label.primary = false
  inside : ∀ label ∈ diagnostic.labels, label.span.Inside source

/-- An open quotation is pointed at within its source. -/
theorem OpenQuotation.pointsInto {source : String} {quotation : OpenQuotation}
    (unclosed : tokenize source = .error quotation) : quotation.diagnostic.PointsInto source := by
  obtain ⟨inside, ended⟩ := span_of_tokenize unclosed
  refine ⟨⟨.unclosedQuote, rfl, ?_⟩, Or.inl rfl, ⟨_, [], rfl, rfl, by simp⟩, ?_⟩
  · intro label member
    rw [List.mem_singleton.mp member]
    exact ended
  · intro label member
    rw [List.mem_singleton.mp member]
    exact inside

/-- A refused line is pointed at within its source. -/
theorem Refusal.pointsInto {source : String} {refusal : Refusal}
    (part : Line.IsLineOf refusal.line source)
    (blamed : ∀ word ∈ refusal.cause.word?, word ∈ refusal.line) :
    refusal.diagnostic.PointsInto source := by
  have about : refusal.diagnostic.IsAbout source .reading := by
    refine ⟨refusal.line, part, fun label member => ?_, refusal.exists_message⟩
    rcases span_of_mem_labels member with same | ⟨word, blame, same⟩
    · rw [same]
      exact ⟨Nat.le_refl _, Nat.le_refl _⟩
    · rw [same]
      exact part.within (blamed word blame)
  have inside : ∀ label ∈ refusal.diagnostic.labels, label.span.Inside source := by
    intro label member
    rcases span_of_mem_labels member with same | ⟨word, blame, same⟩
    · rw [same]
      exact part.inside
    · rw [same]
      exact part.inside_of_mem (blamed word blame)
  obtain ⟨line, cause⟩ := refusal
  cases cause with
  | noStatement =>
      exact ⟨⟨.unknownCommand, rfl, about⟩, Or.inl rfl, ⟨_, [], rfl, rfl, by simp⟩, inside⟩
  | noTerminator =>
      exact ⟨⟨.terminatorMode, rfl, about⟩, Or.inl rfl, ⟨_, [], rfl, rfl, by simp⟩, inside⟩
  | unknownTerminator word =>
      exact ⟨⟨.terminatorMode, rfl, about⟩, Or.inl rfl, ⟨_, [], rfl, rfl, by simp⟩, inside⟩
  | strayWord word =>
      exact ⟨⟨.blockCommand, rfl, about⟩, Or.inl rfl, ⟨_, [_], rfl, rfl, by simp⟩, inside⟩
  | noteArity style arity given =>
      exact ⟨⟨.noteArity, rfl, about⟩, Or.inl rfl, ⟨_, [], rfl, rfl, by simp⟩, inside⟩

/-- A fault points into a source if its labels stand on lines of it that say statements. -/
theorem Fault.pointsInto {source : String} {fault : Fault}
    (about : fault.diagnostic.IsAbout source .assembling) :
    fault.diagnostic.PointsInto source := by
  have inside : ∀ label ∈ fault.diagnostic.labels, label.span.Inside source := by
    intro label member
    obtain ⟨line, statement, part, _, same⟩ := about label member
    rw [same]
    exact part.inside
  cases fault with
  | undefinedMarker origin target =>
      exact ⟨⟨.undefinedMarker, rfl, about⟩, Or.inl rfl, ⟨_, [], rfl, rfl, by simp⟩, inside⟩
  | reservedName origin command name =>
      exact ⟨⟨.reservedName, rfl, about⟩, Or.inl rfl, ⟨_, [], rfl, rfl, by simp⟩, inside⟩
  | strayEnd origin =>
      exact ⟨⟨.strayEnd, rfl, about⟩, Or.inl rfl, ⟨_, [], rfl, rfl, by simp⟩, inside⟩
  | unclosedBlock opening mode =>
      exact ⟨⟨.unclosedBlock, rfl, about⟩, Or.inl rfl, ⟨_, [], rfl, rfl, by simp⟩, inside⟩
  | straySplit origin =>
      exact ⟨⟨.misplacedSplit, rfl, about⟩, Or.inl rfl, ⟨_, [], rfl, rfl, by simp⟩, inside⟩
  | unsplittable origin mode opening =>
      have remark : ∃ label ∈ (unsplittable origin mode opening).diagnostic.labels,
          label.primary = false :=
        ⟨_, List.mem_cons_of_mem _ List.mem_cons_self, rfl⟩
      exact ⟨⟨.misplacedSplit, rfl, about⟩, Or.inr remark, ⟨_, [_], rfl, rfl, by simp⟩, inside⟩

/-- A source is refused by the first step that fails. -/
theorem complaint_of_compile {header : Header} {source : String} {complaint : Complaint}
    (refused : compile header source = .error complaint) :
    match complaint with
    | .quotation quotation => tokenize source = .error quotation
    | .line refusal => ∃ tokens, tokenize source = .ok tokens ∧
        Document.ofLines header (Line.split tokens) = .error refusal
    | .assembly fault => ∃ tokens document, tokenize source = .ok tokens ∧
        Document.ofLines header (Line.split tokens) = .ok document ∧
          document.assemble = .error fault := by
  cases cut : tokenize source with
  | error quotation =>
      simp only [compile, parse, cut] at refused
      obtain rfl := Except.error.inj refused
      rfl
  | ok tokens =>
      cases read : Document.ofLines header (Line.split tokens) with
      | error refusal =>
          simp only [compile, parse, cut, read, Except.mapError] at refused
          obtain rfl := Except.error.inj refused
          exact ⟨tokens, rfl, read⟩
      | ok document =>
          cases made : document.assemble with
          | error fault =>
              simp only [compile, parse, cut, read, Except.mapError, made] at refused
              obtain rfl := Except.error.inj refused
              exact ⟨tokens, document, rfl, read, made⟩
          | ok diagram =>
              simp only [compile, parse, cut, read, Except.mapError, made] at refused
              contradiction

/-- Every complaint points into its source. -/
theorem Complaint.pointsInto {header : Header} {source : String} {complaint : Complaint}
    (refused : compile header source = .error complaint) :
    complaint.diagnostic.PointsInto source := by
  have failed := complaint_of_compile refused
  cases complaint with
  | quotation quotation => exact OpenQuotation.pointsInto failed
  | line refusal =>
      obtain ⟨tokens, cut, refusedLines⟩ := failed
      obtain ⟨line, member, refusedLine⟩ := Document.exists_of_ofLines_eq_error refusedLines
      obtain ⟨rfl, blamed⟩ := Line.refusal_of_read refusedLine
      exact Refusal.pointsInto ⟨tokens, cut, member⟩ blamed
  | assembly fault =>
      obtain ⟨tokens, document, cut, read, made⟩ := failed
      refine Fault.pointsInto fun label member => ?_
      obtain ⟨located, stands, same⟩ := Document.span_of_assemble_eq_error made label member
      obtain ⟨line, found, reads, place⟩ := Document.exists_of_mem_statements read stands
      exact ⟨line, located.statement, ⟨tokens, cut, found⟩, reads, same.trans place⟩

/-- A report draws the labels of a diagnostic where they stand. -/
theorem Diagnostic.PointsInto.pointers {diagnostic : Diagnostic} {source : String}
    (points : diagnostic.PointsInto source) :
    ∃ pointers, (Failure.source diagnostic).pointers? = some pointers ∧
      pointers.map (fun pointer => (pointer.offset, pointer.offset + pointer.length)) =
        diagnostic.labels.map (fun label => (label.span.start, label.span.stop)) ∧
      ∀ pointer ∈ pointers, pointer.offset + pointer.length ≤ source.utf8ByteSize := by
  have stop (label : Label) : label.pointer.offset + label.pointer.length = label.span.stop :=
    Nat.add_sub_of_le label.span.ordered
  obtain ⟨first, others, labels, _⟩ := points.primary
  refine ⟨diagnostic.labels.map Label.pointer, ?_, ?_, ?_⟩
  · rw [Failure.pointers?, Failure.labels, labels]
    rfl
  · rw [List.map_map]
    refine List.map_congr_left fun label _ => ?_
    rw [Function.comp_apply, stop]
    rfl
  · intro pointer drawn
    obtain ⟨label, member, rfl⟩ := List.mem_map.mp drawn
    rw [stop]
    exact (points.inside label member).closes.le_utf8ByteSize

/-- Whenever a source is refused, the diagnostic points into the source, and a report draws each of
its labels at the range where it stands, which ends no later than the source. -/
theorem pointsInto_compile {header : Header} {source : String} {complaint : Complaint}
    (refused : compile header source = .error complaint) :
    complaint.diagnostic.PointsInto source ∧
      ∃ pointers, (Failure.source complaint.diagnostic).pointers? = some pointers ∧
        pointers.map (fun pointer => (pointer.offset, pointer.offset + pointer.length)) =
          complaint.diagnostic.labels.map (fun label => (label.span.start, label.span.stop)) ∧
        ∀ pointer ∈ pointers, pointer.offset + pointer.length ≤ source.utf8ByteSize :=
  have points := Complaint.pointsInto refused
  ⟨points, points.pointers⟩

/-- The split of a loop is pointed at behind a message with a letter of two bytes, and so is the
line that opens the loop. -/
theorem pointsInto_compile_loop :
    ∃ complaint, compile {} "repeat\nA->é\nelse\n" = .error complaint ∧
      complaint.diagnostic.PointsInto "repeat\nA->é\nelse\n" ∧
      ∃ pointers, (Failure.source complaint.diagnostic).pointers? = some pointers ∧
        pointers.map (fun pointer => (pointer.offset, pointer.offset + pointer.length)) =
          [(13, 17), (0, 6)] ∧
        ∀ pointer ∈ pointers, pointer.offset + pointer.length ≤ 18 := by
  have verdict : (match compile {} "repeat\nA->é\nelse\n" with
      | .error complaint => some complaint
      | .ok _ => none) =
        some (.assembly (.unsplittable ⟨3, .between 13 17⟩ .loop (.between 0 6))) := by
    decide +kernel
  split at verdict
  · next complaint refused =>
      obtain rfl := Option.some.inj verdict
      exact ⟨_, refused, pointsInto_compile refused⟩
  · contradiction

end Lifeline
