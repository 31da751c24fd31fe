import Lifeline.Document
import Lifeline.Proofs.Recognition

/-! Every line says what it says by itself, although the header is carried from line to line. -/

namespace Lifeline

namespace Line

/-- A title line gives the text behind its keyword. -/
def title? : Line → Option String
  | [] => none
  | keyword :: words => if keyword.is "title" then some (text words) else none

/-- A line about the terminators gives the mode behind its keyword. -/
def terminators? : Line → Option Terminator
  | keyword :: mode :: _ =>
      if keyword.is "terminators" then Terminator.ofName? mode.value else none
  | _ => none

/-- These lines are about the header. -/
def isHeading (line : Line) : Bool := line.title?.isSome || line.terminators?.isSome

/-- This is the statement of a line that has one, at the place of the line. -/
def located? (line : Line) : Option Located :=
  match read line with
  | .ok (.statement statement) => some ⟨statement, span line⟩
  | _ => none

/-- This is the refusal of a line that is read alone. -/
def refusal? (line : Line) : Option Refusal :=
  match read line with
  | .ok _ => none
  | .error refusal => some refusal

section Entries

variable {line : Line} {keyword : Keyword} {arguments : List Token} {entry : Entry}

/-- Only the form of a keyword can be about the header. -/
theorem read_eq_ok_iff_readKeyword (heading : ∀ statement, entry ≠ .statement statement) :
    read line = .ok entry ↔ readKeyword line = .ok (some entry) := by
  rw [read]
  cases readKeyword line with
  | error cause => simp
  | ok found =>
      cases found with
      | some other => simp
      | none =>
          cases readFree line with
          | none => simp
          | some statement => simpa using (heading statement).symm

/-- Two forms are about the header. -/
theorem readForm_eq_heading_iff (heading : ∀ statement, entry ≠ .statement statement) :
    readForm keyword arguments = .ok (some entry) ↔
      (keyword = .title ∧ entry = .title (text arguments)) ∨
        keyword = .terminators ∧
          ∃ mode, readTerminators arguments = .ok mode ∧ entry = .terminators mode := by
  have foreign (statement : Statement) : Entry.statement statement ≠ entry :=
    (heading statement).symm
  cases keyword with
  | title => simp [readForm, @eq_comm _ entry]
  | terminators =>
      cases reads : readTerminators arguments <;>
        simp [readForm, reads, Except.map, @eq_comm _ entry]
  | otherwise =>
      cases reads : readOtherwise arguments <;> simp [readForm, reads, Except.map, foreign]
  | leave => by_cases empty : arguments = [] <;> simp [readForm, withMentions?, empty, foreign]
  | note style =>
      cases reads : readNote style arguments <;> simp [readForm, reads, Except.map, foreign]
  | _ => simp [readForm, foreign]

/-- A line is read by its keyword if its first token is one and the form fits. -/
theorem readKeyword_cons_eq_ok_iff {first : Token} :
    readKeyword (first :: arguments) = .ok (some entry) ↔
      ∃ keyword, first.value = keyword.word ∧ readForm keyword arguments = .ok (some entry) := by
  simp only [← Keyword.ofWord?_eq_some_iff]
  rw [readKeyword]
  cases Keyword.ofWord? first.value <;> simp

/-- The lines that are read as titles are those that give one. -/
theorem read_eq_title_iff {title : String} :
    read line = .ok (.title title) ↔ line.title? = some title := by
  rw [read_eq_ok_iff_readKeyword (by simp)]
  cases line with
  | nil => simp [readKeyword, title?]
  | cons first arguments =>
      simp [readKeyword_cons_eq_ok_iff, readForm_eq_heading_iff, title?, Token.is, Keyword.word,
        @eq_comm _ title]

/-- The first word tells the terminators, and the others are ignored. -/
theorem readTerminators_eq_ok_iff {mode : Terminator} :
    readTerminators arguments = .ok mode ↔
      ∃ word rest, arguments = word :: rest ∧ Terminator.ofName? word.value = some mode := by
  cases arguments with
  | nil => simp [readTerminators]
  | cons word rest =>
      rw [readTerminators]
      cases found : Terminator.ofName? word.value <;> simp [found]

/-- The lines that are read as terminators are those that give some. -/
theorem read_eq_terminators_iff {mode : Terminator} :
    read line = .ok (.terminators mode) ↔ line.terminators? = some mode := by
  rw [read_eq_ok_iff_readKeyword (by simp)]
  match line with
  | [] => simp [readKeyword, terminators?]
  | [first] =>
      simp [readKeyword_cons_eq_ok_iff, readForm_eq_heading_iff, readTerminators, terminators?]
  | first :: word :: rest =>
      simp [readKeyword_cons_eq_ok_iff, readForm_eq_heading_iff, readTerminators_eq_ok_iff,
        terminators?, Token.is, Keyword.word]

theorem title?_eq : line.title? =
    match read line with
    | .ok (.title title) => some title
    | _ => none := by
  ext title
  rw [← read_eq_title_iff]
  cases read line with
  | error refusal => simp
  | ok entry => cases entry <;> simp

theorem terminators?_eq : line.terminators? =
    match read line with
    | .ok (.terminators mode) => some mode
    | _ => none := by
  ext mode
  rw [← read_eq_terminators_iff]
  cases read line with
  | error refusal => simp
  | ok entry => cases entry <;> simp

/-- A line is not refused exactly if it is read. -/
theorem refusal?_eq_none_iff : line.refusal? = none ↔ ∃ entry, read line = .ok entry := by
  rw [refusal?]
  cases read line <;> simp

theorem refusal?_eq_some_iff {refusal : Refusal} :
    line.refusal? = some refusal ↔ read line = .error refusal := by
  rw [refusal?]
  cases read line <;> simp

/-- A line about the header is neither refused nor a statement. -/
theorem silent_of_isHeading (heading : line.isHeading = true) :
    line.refusal? = none ∧ line.located? = none := by
  rw [isHeading, title?_eq, terminators?_eq] at heading
  rw [refusal?, located?]
  cases said : read line with
  | error refusal => simp [said] at heading
  | ok entry => cases entry <;> simp [said] at heading ⊢

/-- A statement is located by its line. -/
theorem locate?_of_read (said : read line = .ok entry) :
    Document.locate? (entry, span line) = line.located? := by
  rw [located?, said]
  cases entry <;> rfl

end Entries

end Line

/-- The header behind some lines has the last title and the last mode among them, and where there is
none, those in front of them. -/
def Header.behind (header : Header) (lines : List Line) : Header where
  title := (lines.filterMap Line.title?).getLast?.getD header.title
  terminators := (lines.filterMap Line.terminators?).getLast?.getD header.terminators

/-- The last hit of a list is a hit behind its first item, or else the first item itself. -/
theorem getLast?_getD_filterMap_cons {A B : Type} {first : A} {rest : List A}
    (part : A → Option B) (fallback : B) :
    ((first :: rest).filterMap part).getLast?.getD fallback =
      (rest.filterMap part).getLast?.getD ((part first).getD fallback) := by
  rw [List.filterMap_cons]
  cases part first with
  | none => rfl
  | some value => simp [List.getLast?_cons]

/-- A header goes through the lines one after another. -/
theorem Header.behind_cons (header : Header) (line : Line) (rest : List Line) :
    header.behind (line :: rest) = (header.behind [line]).behind rest := by
  simp only [behind, getLast?_getD_filterMap_cons, List.filterMap_nil, List.getLast?_nil,
    Option.getD_none]

/-- A line that is refused is not about the header, which stays as it is. -/
theorem Header.follow_read (header : Header) (line : Line) :
    header.follow (Line.read line) = header.behind [line] := by
  simp only [behind, getLast?_getD_filterMap_cons, Line.title?_eq, Line.terminators?_eq]
  cases Line.read line with
  | error refusal => rfl
  | ok entry => cases entry <;> rfl

namespace Document

/-- One more line adds to what has been read: an entry takes effect on the header, and a statement
comes behind the others. -/
def extend (document : Document) (line : Line) : Except Refusal Document :=
  (Line.read line).map fun entry =>
    { header := document.header.apply entry
      statements := document.statements ++ (locate? (entry, Line.span line)).toList }

/-- Unless a line is refused, it adds to the header and to the statements. -/
theorem extend_eq (document : Document) (line : Line) :
    document.extend line =
      match line.refusal? with
      | some refusal => .error refusal
      | none => .ok ⟨document.header.behind [line],
          document.statements ++ line.located?.toList⟩ := by
  rw [extend]
  cases said : Line.read line with
  | error refusal => rw [Line.refusal?_eq_some_iff.mpr said, Except.map]
  | ok entry =>
      have follows := document.header.follow_read line
      rw [said] at follows
      rw [Line.refusal?_eq_none_iff.mpr ⟨entry, said⟩, ← follows, ← Line.locate?_of_read said]
      rfl

/-- A pass over some lines stops at the first one that is refused, and otherwise adds them all. -/
theorem foldlM_extend (document : Document) (lines : List Line) :
    lines.foldlM extend document =
      match lines.findSome? Line.refusal? with
      | some refusal => .error refusal
      | none => .ok ⟨document.header.behind lines,
          document.statements ++ lines.filterMap Line.located?⟩ := by
  induction lines generalizing document with
  | nil => simp [Header.behind, pure, Except.pure]
  | cons line rest ih =>
      rw [List.foldlM_cons, extend_eq, List.findSome?_cons]
      cases line.refusal? with
      | some refusal => rfl
      | none =>
          change rest.foldlM extend _ = _
          rw [ih, ← Header.behind_cons]
          cases rest.findSome? Line.refusal? with
          | some refusal => rfl
          | none =>
              cases located : line.located? <;> simp [located]

/-- A document is made by one pass over its lines. -/
theorem ofLines_eq_foldlM (header : Header) (lines : List Line) :
    ofLines header lines = lines.foldlM extend ⟨header, []⟩ := by
  have pass (document : Document) :
      ((lines.mapM fun line => (Line.read line).map fun entry => (entry, Line.span line)).map
        fun entries => ⟨entries.foldl (fun header entry => header.apply entry.1) document.header,
          document.statements ++ entries.filterMap locate?⟩) = lines.foldlM extend document := by
    induction lines generalizing document with
    | nil => simp [pure, Except.pure, Except.map]
    | cons line rest ih =>
        rw [List.mapM_cons, List.foldlM_cons, extend]
        cases Line.read line with
        | error refusal => rfl
        | ok entry =>
            change _ = rest.foldlM extend ⟨document.header.apply entry,
              document.statements ++ (locate? (entry, Line.span line)).toList⟩
            rw [← ih]
            cases (rest.mapM fun line =>
                (Line.read line).map fun entry => (entry, Line.span line)) with
            | error refusal => rfl
            | ok entries =>
                cases located : locate? (entry, Line.span line) <;>
                  simp [Except.map, bind, Except.bind, pure, Except.pure, located]
  exact pass ⟨header, []⟩

/-- Lines are refused for the first one that is refused alone, or else they are read apart. -/
theorem ofLines_eq (header : Header) (lines : List Line) :
    ofLines header lines =
      match lines.findSome? Line.refusal? with
      | some refusal => .error refusal
      | none => .ok ⟨header.behind lines, lines.filterMap Line.located?⟩ := by
  rw [ofLines_eq_foldlM, foldlM_extend]
  simp only [List.nil_append]

end Document

namespace Header

/-- Lines that share a header are read as they are read alone, whatever came before them, and the
header behind each of them is that of the last lines about it. -/
theorem getElem?_readings (header : Header) (before : List Line) (line : Line)
    (after : List Line) :
    (header.readings (before ++ line :: after))[before.length]? =
      some (Line.read line, header.behind (before ++ [line])) := by
  induction before generalizing header with
  | nil => simp [readings, follow_read]
  | cons first rest ih =>
      rw [List.cons_append, readings, List.length_cons, List.getElem?_cons_succ, ih, follow_read,
        List.cons_append, ← behind_cons]

end Header

/-- What lines about the header do not have is found among the other lines. -/
theorem filterMap_filter_not_isHeading {A : Type} {part : Line → Option A}
    (silent : ∀ line, Line.isHeading line = true → part line = none) (lines : List Line) :
    (lines.filter fun line => !line.isHeading).filterMap part = lines.filterMap part := by
  rw [List.filterMap_filter]
  congr 1
  funext line
  cases heading : line.isHeading with
  | false => rfl
  | true => simp [silent line heading]

/-- A document fails with the refusal of the first line that is refused alone. Otherwise it has the
statements of its lines in their order and the title and the mode of the last lines about them.
Lines about the header can be put in, left out and moved without a change to the statements or to
the refusal, and no line is read differently for the header that it is read with. -/
theorem ofLines_line_by_line (mode : Terminator) (lines : List Line) :
    (∀ refusal, Document.ofLines { terminators := mode } lines = .error refusal ↔
      ∃ before line after, lines = before ++ line :: after ∧ Line.read line = .error refusal ∧
        ∀ earlier ∈ before, ∃ entry, Line.read earlier = .ok entry) ∧
    (∀ document, Document.ofLines { terminators := mode } lines = .ok document ↔
      (∀ line ∈ lines, ∃ entry, Line.read line = .ok entry) ∧
        document.statements = lines.filterMap Line.located? ∧
        document.header.title = (lines.filterMap Line.title?).getLast?.getD "" ∧
        document.header.terminators =
          (lines.filterMap Line.terminators?).getLast?.getD mode) ∧
    (∀ other others,
      (others.filter fun line => !line.isHeading) = (lines.filter fun line => !line.isHeading) →
        (Document.ofLines { terminators := other } others).map Document.statements =
          (Document.ofLines { terminators := mode } lines).map Document.statements) ∧
    Document.ofLines { terminators := mode } lines =
      lines.foldlM Document.extend ⟨{ terminators := mode }, []⟩ ∧
    ∀ header : Header, ∀ before line after, lines = before ++ line :: after →
      (header.readings lines)[before.length]? =
        some (Line.read line, header.behind (before ++ [line])) := by
  refine ⟨?_, ?_, ?_, Document.ofLines_eq_foldlM _ lines, ?_⟩
  · intro refusal
    have first : Document.ofLines { terminators := mode } lines = .error refusal ↔
        lines.findSome? Line.refusal? = some refusal := by
      rw [Document.ofLines_eq]
      cases lines.findSome? Line.refusal? <;> simp
    simp only [first, List.findSome?_eq_some_iff, Line.refusal?_eq_some_iff,
      Line.refusal?_eq_none_iff]
  · intro document
    simp only [← Line.refusal?_eq_none_iff, ← List.findSome?_eq_none_iff]
    rw [Document.ofLines_eq]
    cases lines.findSome? Line.refusal? with
    | some refusal => simp
    | none =>
        constructor
        · rintro ⟨⟩
          exact ⟨rfl, rfl, rfl, rfl⟩
        · rintro ⟨_, statements, title, terminators⟩
          obtain ⟨⟨_, _⟩, _⟩ := document
          subst statements title terminators
          rfl
  · intro other others same
    have refusals := congrArg (fun lines => (lines.filterMap Line.refusal?).head?) same
    have statements := congrArg (List.filterMap Line.located?) same
    simp only [filterMap_filter_not_isHeading fun line heading =>
      (Line.silent_of_isHeading heading).1, List.head?_filterMap] at refusals
    simp only [filterMap_filter_not_isHeading fun line heading =>
      (Line.silent_of_isHeading heading).2] at statements
    rw [Document.ofLines_eq, Document.ofLines_eq, refusals]
    cases lines.findSome? Line.refusal? with
    | some refusal => rfl
    | none => exact congrArg Except.ok statements
  · rintro header before line after rfl
    exact header.getElem?_readings before line after

end Lifeline
