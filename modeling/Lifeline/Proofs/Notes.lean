import Lifeline.Proofs.Recognition
import Lifeline.Proofs.Writing

/-! A line is a note exactly if a position and a colon follow its keyword. -/

namespace Lifeline

/-- A style has a position if it allows a note there with some number of names. -/
def NoteStyle.HasPosition (style : NoteStyle) (position : NotePosition) : Prop :=
  ∃ count, style.Allows position count

/-- A position beside a participant may have the word `of` behind it. -/
def NotePosition.isBeside : NotePosition → Bool
  | .left => true
  | .right => true
  | .over => false
  | .between => false

namespace NoteForm

variable {style : NoteStyle} {position : NotePosition} {word : String} {form : NoteForm}

/-- The word of each position of a style is known to the reader. -/
theorem exists_ofWord? (allowed : style.HasPosition position) :
    ∃ form, ofWord? style position.name = some form ∧ form.position = position := by
  obtain ⟨count, allowed⟩ := allowed
  cases style <;> cases position <;> first | exact ⟨_, rfl, rfl⟩ | exact allowed.elim

/-- A form belongs to the name of its position, and its arity says which numbers are allowed. -/
theorem of_ofWord? (found : ofWord? style word = some form) :
    word = form.position.name ∧ style.HasPosition form.position ∧
      form.filler = (if form.position.isBeside then some "of" else none) ∧
      ∀ count, form.arity.allows count = true ↔ style.Allows form.position count := by
  have least : style.Allows form.position form.arity.least := by
    unfold ofWord? at found
    split at found <;> cases found <;> simp [NoteStyle.Allows]
  refine ⟨?_, ⟨_, least⟩, ?_, fun count => ?_⟩ <;> unfold ofWord? at found <;>
    split at found <;> cases found
  all_goals simp [NotePosition.name, NotePosition.isBeside, Arity.allows, NoteStyle.Allows] <;> omega

/-- A word has a form exactly if it is the name of a position of the style. -/
theorem ofWord?_eq_none_iff : ofWord? style word = none ↔
    ∀ position, style.HasPosition position → word ≠ position.name := by
  constructor
  · rintro none position allowed rfl
    obtain ⟨form, found, _⟩ := exists_ofWord? allowed
    rw [found] at none
    contradiction
  · intro foreign
    rw [Option.eq_none_iff_forall_ne_some]
    intro form found
    obtain ⟨same, allowed, _⟩ := of_ofWord? found
    exact foreign form.position allowed same

end NoteForm

namespace Line

/-- A list of tokens is cut at its commas into runs that hold no comma. -/
inductive CutAtCommas : List Token → List (List Token) → Prop where
  | last {run : List Token} (clear : ∀ token ∈ run, token.is "," = false) : CutAtCommas run [run]
  | comma {run behind : List Token} {comma : Token} {runs : List (List Token)}
      (clear : ∀ token ∈ run, token.is "," = false) (separates : comma.is "," = true)
      (rest : CutAtCommas behind runs) : CutAtCommas (run ++ comma :: behind) (run :: runs)

/-- There is one way to cut a list at its commas. -/
theorem cutAtCommas_iff {tokens : List Token} {runs : List (List Token)} :
    CutAtCommas tokens runs ↔ runs = tokens.splitOnP fun token => token.is "," := by
  let isComma (token : Token) : Bool := token.is ","
  change CutAtCommas tokens runs ↔ runs = tokens.splitOnP isComma
  constructor
  · intro cut
    induction cut with
    | last clear => exact (List.splitOnP_eq_singleton clear).symm
    | @comma run behind comma runs clear separates rest ih =>
        have parts : (run ++ comma :: behind).splitOnP isComma =
            run.splitOnP isComma ++ behind.splitOnP isComma :=
          List.splitOnP_append_cons run behind separates
        rw [parts, List.splitOnP_eq_singleton clear, ← ih, List.singleton_append]
  · rintro rfl
    induction tokens with
    | nil => exact .last (by simp)
    | cons token rest ih =>
        rw [List.splitOnP_cons_eq_if_modifyHead]
        split
        · next separates => exact @CutAtCommas.comma [] _ _ _ (by simp) separates ih
        · next plain =>
            -- The token becomes a part of the first run behind it.
            have plain : token.is "," = false := Bool.eq_false_iff.mpr plain
            generalize rest.splitOnP isComma = runs at ih
            cases ih with
            | last clear => exact .last (List.forall_mem_cons.mpr ⟨plain, clear⟩)
            | comma clear separates behind =>
                exact .comma (List.forall_mem_cons.mpr ⟨plain, clear⟩) separates behind

/-- Each run gives a name, unless its text is empty. -/
def namesOf (runs : List (List Token)) : List String :=
  (runs.map text).filter fun name => name != ""

/-- The names in a list are the texts of its runs between commas. -/
theorem names_of_cutAtCommas {tokens : List Token} {runs : List (List Token)}
    (cut : CutAtCommas tokens runs) : names tokens = namesOf runs := by
  rw [cutAtCommas_iff.mp cut, names, namesOf]

/-- The word `of` behind a position beside a participant is a filler and not a part of a name. -/
inductive IsFiller (position : NotePosition) : List Token → List Token → Prop where
  | absent {about : List Token}
      (plain : position.isBeside = true → ∀ token ∈ about.head?, token.is "of" = false) :
      IsFiller position [] about
  | word {about : List Token} {token : Token} (beside : position.isBeside = true)
      (fills : token.is "of" = true) : IsFiller position [token] about

/-- A note has the keyword of its style, a position, a filler or none, and runs of tokens between
commas. Its label stands behind the first colon. -/
structure IsNote (style : NoteStyle) (line : Line) (position : NotePosition)
    (filler about : List Token) (runs : List (List Token)) (label : List Token) : Prop where
  joined : ∃ keyword word colon, line = keyword :: word :: (filler ++ about ++ colon :: label) ∧
    keyword.is style.keyword = true ∧ word.is position.name = true ∧ colon.is ":" = true
  allowed : style.HasPosition position
  earliest : ∀ token ∈ filler ++ about, token.is ":" = false
  filled : IsFiller position filler about
  cut : CutAtCommas about runs

/-- A line has the form of a note if a position stands second and a colon somewhere. -/
def HasNoteForm (style : NoteStyle) (line : Line) : Prop :=
  (∃ token ∈ line, token.is ":" = true) ∧
    ∃ word ∈ line.tail.head?, ∃ position, style.HasPosition position ∧ word.is position.name = true

/-- Without a keyword a line is a message, or else a marker, or else it is refused. -/
inductive ReadsFreely (line : Line) : Except Refusal Entry → Prop where
  | message {left right rest : List Token} {sign : Token} {arrow : Arrow}
      (shape : IsMessage line left sign arrow right rest) :
      ReadsFreely line (.ok (.statement
        (.message (mentionOf left) (mentionOf right) arrow (text rest.tail))))
  | marker
      (shapeless : ¬∃ left sign arrow right rest, IsMessage line left sign arrow right rest)
      (shape : IsMarker line) : ReadsFreely line (.ok (.statement (.mark (text line.dropLast))))
  | neither
      (shapeless : ¬∃ left sign arrow right rest, IsMessage line left sign arrow right rest)
      (unmarked : ¬IsMarker line) : ReadsFreely line (.error ⟨line, .noStatement⟩)

/-- A line that no keyword claims is read in one way. -/
theorem read_eq_iff_readsFreely {line : Line} (unclaimed : Unclaimed line)
    (outcome : Except Refusal Entry) : read line = outcome ↔ ReadsFreely line outcome := by
  constructor
  · rintro rfl
    cases message : message? line with
    | some statement =>
        obtain ⟨left, sign, arrow, right, rest, shape, rfl⟩ := message?_eq_some_iff.mp message
        rw [read_of_message unclaimed message]
        exact .message shape
    | none =>
        have shapeless := message?_eq_none_iff.mp message
        cases marker : marker? line with
        | some statement =>
            obtain ⟨shape, rfl⟩ := marker?_eq_some_iff.mp marker
            rw [read_of_marker unclaimed message marker]
            exact .marker shapeless shape
        | none =>
            rw [read_of_neither unclaimed message marker]
            exact .neither shapeless (marker?_eq_none_iff.mp marker)
  · intro reads
    cases reads with
    | message shape =>
        exact read_of_message unclaimed
          (message?_eq_some_iff.mpr ⟨_, _, _, _, _, shape, rfl⟩)
    | marker shapeless shape =>
        exact read_of_marker unclaimed (message?_eq_none_iff.mpr shapeless)
          (marker?_eq_some_iff.mpr ⟨shape, rfl⟩)
    | neither shapeless unmarked =>
        exact read_of_neither unclaimed (message?_eq_none_iff.mpr shapeless)
          (marker?_eq_none_iff.mpr unmarked)

section Notes

variable {style : NoteStyle} {position : NotePosition} {first : Token}
  {arguments filler about before label : List Token} {runs : List (List Token)}

/-- A filler is dropped in front of the names. -/
theorem IsFiller.elim_dropWord (filled : IsFiller position filler about) :
    (if position.isBeside then some "of" else none).elim (filler ++ about)
      (fun word => dropWord word (filler ++ about)) = about := by
  cases filled with
  | word beside fills => simp [beside, dropWord, fills]
  | absent plain =>
      cases beside : position.isBeside with
      | false => rfl
      | true =>
          cases about with
          | nil => rfl
          | cons token rest => simp [dropWord, plain beside token rfl]

/-- Whatever stands in front of the colon is a filler with a list behind it. -/
theorem exists_isFiller (position : NotePosition) (before : List Token) :
    ∃ filler about, before = filler ++ about ∧ IsFiller position filler about := by
  cases before with
  | nil => exact ⟨[], [], rfl, .absent (by simp)⟩
  | cons token rest =>
      by_cases fills : position.isBeside = true ∧ token.is "of" = true
      · exact ⟨[token], rest, rfl, .word fills.1 fills.2⟩
      · refine ⟨[], token :: rest, rfl, .absent fun beside => ?_⟩
        simpa [beside] using fills

/-- The keyword of a note claims its line exactly if the line has the form of a note. -/
theorem unclaimed_iff (keyword : first.is style.keyword = true) :
    Unclaimed (first :: arguments) ↔ ¬HasNoteForm style (first :: arguments) := by
  have named : first.value = (Keyword.note style).word := Token.is_iff.mp keyword
  have plain : first.is ":" = false := by
    rw [Token.is, named]
    cases style <;> rfl
  have claims : Unclaimed (first :: arguments) ↔ Misfits (.note style) arguments := by
    simp [Unclaimed, Keyword.ofWord?_eq_some_iff.mpr named]
  rw [claims, Misfits, HasNoteForm, not_and_or]
  refine or_congr ?_ ?_
  · simp [plain]
  · simp [NoteForm.ofWord?_eq_none_iff, Token.is_iff]

/-- The parts of a note are found exactly where the line has its form. -/
theorem hasNoteForm_iff (keyword : first.is style.keyword = true) :
    HasNoteForm style (first :: arguments) ↔
      ∃ position filler about runs label,
        IsNote style (first :: arguments) position filler about runs label := by
  constructor
  · rintro ⟨present, word, placed, position, allowed, named⟩
    obtain ⟨rest, rfl⟩ := List.head?_eq_some_iff.mp placed
    -- Neither the keyword nor the position is a colon.
    have others : first.is ":" = false ∧ word.is ":" = false := by
      rw [Token.is, Token.is_iff.mp keyword, Token.is, Token.is_iff.mp named]
      exact ⟨by cases style <;> rfl, by cases position <;> rfl⟩
    cases cut : cutAt? ":" rest with
    | none =>
        obtain ⟨colon, inside, separates⟩ := present
        have absent : ∀ token ∈ first :: word :: rest, token.is ":" = false :=
          List.forall_mem_cons.mpr
            ⟨others.1, List.forall_mem_cons.mpr ⟨others.2, cutAt?_eq_none_iff.mp cut⟩⟩
        simp [absent colon inside] at separates
    | some parts =>
        obtain ⟨colon, rfl, separates, earliest⟩ := cutAt?_eq_some_iff.mp cut
        obtain ⟨filler, about, joined, filled⟩ := exists_isFiller position parts.1
        rw [joined] at earliest ⊢
        exact ⟨position, filler, about, _, parts.2,
          ⟨_, _, colon, rfl, keyword, named, separates⟩, allowed, earliest, filled,
          cutAtCommas_iff.mpr rfl⟩
  · rintro ⟨position, filler, about, runs, label, shape⟩
    obtain ⟨other, word, colon, joined, _, named, separates⟩ := shape.joined
    obtain ⟨rfl, rfl⟩ := List.cons.inj joined
    exact ⟨⟨colon, by simp, separates⟩, word, rfl, position, shape.allowed, named⟩

/-- A note is read if it allows as many names as there are. -/
theorem readNote_of_isNote
    (shape : IsNote style (first :: arguments) position filler about runs label) :
    ∃ arity : Arity, (∀ count, arity.allows count = true ↔ style.Allows position count) ∧
      readNote style arguments =
        if arity.allows (names about).length then
          .ok (some (.note position style (mentions about) (text label)))
        else .error (.noteArity style arity (names about).length) := by
  obtain ⟨keyword, word, colon, joined, _, placed, separates⟩ := shape.joined
  obtain ⟨rfl, rfl⟩ := List.cons.inj joined
  obtain ⟨form, found, rfl⟩ := NoteForm.exists_ofWord? shape.allowed
  obtain ⟨_, _, filler, allows⟩ := NoteForm.of_ofWord? found
  refine ⟨form.arity, allows, ?_⟩
  rw [readNote, Token.is_iff.mp placed, found, cutAt?_append_cons shape.earliest separates]
  simp only [filler, shape.filled.elim_dropWord, mentions, List.length_map]

/-- The names of a note line and their number decide how it is read. -/
theorem read_of_isNote
    (shape : IsNote style (first :: arguments) position filler about runs label) :
    (style.Allows position (namesOf runs).length →
      read (first :: arguments) = .ok (.statement
        (.note position style ((namesOf runs).map fun name => ⟨name, none⟩) (text label)))) ∧
    (¬style.Allows position (namesOf runs).length →
      ∃ refusal arity, read (first :: arguments) = .error refusal ∧
        refusal = ⟨first :: arguments, .noteArity style arity (namesOf runs).length⟩ ∧
        (∀ count, arity.allows count = true ↔ style.Allows position count) ∧
        refusal.diagnostic.code.map Code.name = some "E103") := by
  obtain ⟨arity, allows, reads⟩ := readNote_of_isNote shape
  obtain ⟨keyword, word, colon, joined, named, _, _⟩ := shape.joined
  obtain ⟨rfl, _⟩ := List.cons.inj joined
  rw [mentions, names_of_cutAtCommas shape.cut] at reads
  have named : first.value = (Keyword.note style).word := Token.is_iff.mp named
  have keyed : readKeyword (first :: arguments) =
      (readNote style arguments).map fun statement => statement.map .statement := by
    rw [readKeyword, Keyword.ofWord?_eq_some_iff.mpr named]
    rfl
  rw [reads] at keyed
  constructor
  · intro allowed
    rw [if_pos ((allows _).mpr allowed)] at keyed
    rw [read, keyed]
    rfl
  · intro refused
    rw [if_neg (mt (allows _).mp refused)] at keyed
    refine ⟨_, arity, ?_, rfl, allows, rfl⟩
    rw [read, keyed]
    rfl

end Notes

/-- A line with the keyword of a note is a note, or refused for the number of its names, exactly if
it has the form of one. Then its names are those of the runs between the commas, and it is a note if
its style allows their number at its position. Without the form, it is read freely. -/
theorem read_of_note_keyword {style : NoteStyle} {line : Line}
    (keyword : ∃ first ∈ line.head?, first.is style.keyword = true) :
    ((∃ position other mentions label,
        read line = .ok (.statement (.note position other mentions label))) ∨
      (∃ refusal, read line = .error refusal ∧
        refusal.diagnostic.code.map Code.name = some "E103") ↔ HasNoteForm style line) ∧
    (HasNoteForm style line ↔
      ∃ position filler about runs label, IsNote style line position filler about runs label) ∧
    (∀ position filler about runs label, IsNote style line position filler about runs label →
      (style.Allows position (namesOf runs).length →
        read line = .ok (.statement
          (.note position style ((namesOf runs).map fun name => ⟨name, none⟩) (text label)))) ∧
      (¬style.Allows position (namesOf runs).length →
        ∃ refusal arity, read line = .error refusal ∧
          refusal = ⟨line, .noteArity style arity (namesOf runs).length⟩ ∧
          (∀ count, arity.allows count = true ↔ style.Allows position count) ∧
          refusal.diagnostic.code.map Code.name = some "E103")) ∧
    (¬HasNoteForm style line → ∀ outcome, read line = outcome ↔ ReadsFreely line outcome) := by
  obtain ⟨first, head, keyword⟩ := keyword
  obtain ⟨arguments, rfl⟩ := List.head?_eq_some_iff.mp head
  refine ⟨⟨?_, ?_⟩, hasNoteForm_iff keyword, ?_, ?_⟩
  · intro noted
    by_contra formless
    have free := read_eq_iff_readsFreely ((unclaimed_iff keyword).mpr formless)
    rcases noted with ⟨position, other, mentions, label, reads⟩ | ⟨refusal, refused, code⟩
    · nomatch (free _).mp reads
    · cases (free _).mp refused
      exact absurd code (by simp [Refusal.diagnostic, Code.name])
  · intro form
    obtain ⟨position, filler, about, runs, label, shape⟩ := (hasNoteForm_iff keyword).mp form
    obtain ⟨accepted, refused⟩ := read_of_isNote shape
    by_cases allowed : style.Allows position (namesOf runs).length
    · exact .inl ⟨_, _, _, _, accepted allowed⟩
    · obtain ⟨refusal, _, reads, _, _, code⟩ := refused allowed
      exact .inr ⟨refusal, reads, code⟩
  · intro position filler about runs label shape
    exact read_of_isNote shape
  · intro formless
    exact read_eq_iff_readsFreely ((unclaimed_iff keyword).mpr formless)

/-- The first `of` is a filler and the second one is a name; a quoted comma separates nothing, and a
second colon belongs to the label. -/
theorem read_of_note_keyword_filler :
    ∃ line : Line,
      line.map Token.value =
        ["note", "left", "of", "of", ",", ",", "B, C", ":", "x", ":", "y"] ∧
      read line = .ok (.statement
        (.note .left .note [⟨"of", none⟩, ⟨"B, C", none⟩] "x : y")) := by
  let keyword : Token := ⟨"", "note", false, .origin⟩
  let word : Token := ⟨" ", "left", false, .origin⟩
  let filler : Token := ⟨" ", "of", false, .origin⟩
  let comma : Token := ⟨"", ",", false, .origin⟩
  let quotation : Token := ⟨" ", "B, C", true, .origin⟩
  let colon : Token := ⟨" ", ":", false, .origin⟩
  let label : List Token :=
    [⟨" ", "x", false, .origin⟩, ⟨" ", ":", false, .origin⟩, ⟨" ", "y", false, .origin⟩]
  have cut : CutAtCommas ([filler] ++ comma :: ([] ++ comma :: [quotation]))
      [[filler], [], [quotation]] :=
    .comma (by decide) rfl (.comma (by decide) rfl (.last (by decide)))
  have shape : IsNote .note
      (keyword :: word :: ([filler] ++ [filler, comma, comma, quotation] ++ colon :: label))
      .left [filler] [filler, comma, comma, quotation] [[filler], [], [quotation]] label :=
    ⟨⟨_, _, colon, rfl, rfl, rfl, rfl⟩, ⟨0, trivial⟩, by decide, .word rfl rfl, cut⟩
  have names : namesOf [[filler], [], [quotation]] = ["of", "B, C"] := by decide
  have reads := ((read_of_note_keyword ⟨keyword, rfl, rfl⟩).2.2.1 _ _ _ _ _ shape).1
    (by rw [names]; trivial)
  rw [names] at reads
  exact ⟨_, rfl, reads⟩

end Line

end Lifeline
