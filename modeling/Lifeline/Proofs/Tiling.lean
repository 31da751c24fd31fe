import Lifeline.Proofs.Lexemes
import Lifeline.Token

/-! The tokens of a source and the gaps between them make up the source without a rest. -/

namespace Lifeline

namespace Text

/-- A part of a text stands between two byte offsets. -/
def Between (source : List Char) (start stop : Nat) (part : List Char) : Prop :=
  ∃ before after, source = before ++ part ++ after ∧ byteCount before = start ∧
    byteCount (before ++ part) = stop

theorem byteCount_pos {text : List Char} (some : text ≠ []) : 0 < byteCount text :=
  Nat.pos_of_ne_zero fun none => some ((byteCount_eq_zero_iff text).mp none)

/-- An offset belongs to one place in a text only. -/
theorem append_inj_of_byteCount {first second before after : List Char}
    (joined : first ++ second = before ++ after) (same : byteCount first = byteCount before) :
    first = before ∧ second = after := by
  induction first generalizing before with
  | nil =>
      have none : before = [] := (byteCount_eq_zero_iff before).mp same.symm
      rw [none] at joined ⊢
      exact ⟨rfl, joined⟩
  | cons head rest ih =>
      cases before with
      | nil =>
          have some := byteCount_pos (List.cons_ne_nil head rest)
          rw [same] at some
          contradiction
      | cons other more =>
          obtain ⟨rfl, tails⟩ := List.cons.inj joined
          have sizes : byteCount rest = byteCount more := Nat.add_left_cancel same
          obtain ⟨rfl, behind⟩ := ih tails sizes
          exact ⟨rfl, behind⟩

end Text

/-- A gap is a run of blanks, and one comment may stand at its end. The blanks are the separator of
the token behind the gap unless there is a comment. -/
inductive Gap : List Char → String → Bool → Prop where
  | blank {run : List Char} (blank : ∀ character ∈ run, Lexeme.isBlank character = true) :
      Gap run (String.ofList run) false
  | comment {run body : List Char} (blank : ∀ character ∈ run, Lexeme.isBlank character = true)
      (line : '\n' ∉ body) : Gap (run ++ '#' :: body) "" true

/-- A plain text is a newline, a comma, a colon, a run of symbols or a word. -/
def Text.IsPlain (text : List Char) : Prop :=
  text = ['\n'] ∨ text = [','] ∨ text = [':'] ∨
    (text ≠ [] ∧ ∀ character ∈ text, Lexeme.isSymbol character = true) ∨
    (text ≠ [] ∧ (∀ character ∈ text, Lexeme.isWordCharacter character = true) ∧
      ∀ character ∈ text.head?, character ≠ '#' ∧ Quoted.isMark character = false)

namespace Token

/-- A quoted token is written as a content between two equal marks that spells its value. Any other
token is written as its value. -/
def IsWritten (token : Token) (body : List Char) : Prop :=
  if token.quoted = true then
    ∃ mark content, Quoted.isMark mark = true ∧ body = mark :: (content ++ [mark]) ∧
      Quoted.Spells mark content token.value.toList
  else body = token.value.toList ∧ Text.IsPlain body

/-- From an offset on, each token comes behind a gap, and a last gap reaches to the end of the
source. A comment reaches to the next newline, which is a token. -/
def Spaced (source : List Char) : Nat → List Token → Prop
  | offset, [] => ∃ gap separator commented,
      Text.Between source offset (Text.byteCount source) gap ∧ Gap gap separator commented
  | offset, token :: others => (∃ gap commented,
      Text.Between source offset token.span.start gap ∧ Gap gap token.separator commented ∧
        (commented = true → token.isLineBreak = true)) ∧ Spaced source token.span.stop others

/-- Tokens tile a source if they are in order and none is empty, each covers a text that it is
written as, no plain text could have been longer, and there are only gaps between them. -/
structure Tiling (source : List Char) (tokens : List Token) : Prop where
  filled : ∀ token ∈ tokens, token.span.start < token.span.stop
  ordered : tokens.Pairwise fun earlier later => earlier.span.stop ≤ later.span.start
  written : ∀ token ∈ tokens, ∃ body,
    Text.Between source token.span.start token.span.stop body ∧ token.IsWritten body
  longest : ∀ token ∈ tokens, token.quoted = false → ∀ before next after,
    source = before ++ next :: after → Text.byteCount before = token.span.stop →
      ¬Text.IsPlain (token.value.toList ++ [next])
  spaced : Spaced source 0 tokens

/-- Every token is written with a character at least. -/
theorem IsWritten.ne_nil {token : Token} {body : List Char} (written : token.IsWritten body) :
    body ≠ [] := by
  unfold IsWritten at written
  split at written
  · obtain ⟨mark, content, _, rfl, _⟩ := written
    exact List.cons_ne_nil _ _
  · obtain ⟨_, rfl | rfl | rfl | ⟨some, _⟩ | ⟨some, _⟩⟩ := written
    · exact List.cons_ne_nil _ _
    · exact List.cons_ne_nil _ _
    · exact List.cons_ne_nil _ _
    · exact some
    · exact some

/-- Behind what has been read, the text ahead is tiled by tokens. -/
inductive Tiles : List Char → List Char → List Token → Prop where
  | ended {read gap : List Char} {separator : String} {commented : Bool}
      (between : Gap gap separator commented) : Tiles read gap []
  | token {read gap body ahead : List Char} {commented : Bool} {token : Token}
      {others : List Token} (between : Gap gap token.separator commented)
      (line : commented = true → token.isLineBreak = true)
      (start : token.span.start = Text.byteCount (read ++ gap))
      (stop : token.span.stop = Text.byteCount (read ++ gap ++ body))
      (written : token.IsWritten body)
      (longest : token.quoted = false →
        ∀ next ∈ ahead.head?, ¬Text.IsPlain (token.value.toList ++ [next]))
      (rest : Tiles (read ++ gap ++ body) ahead others) :
      Tiles read (gap ++ body ++ ahead) (token :: others)

namespace Tiles

variable {read ahead : List Char} {tokens : List Token}

/-- No token of a tiling is empty. -/
theorem filled (tiles : Tiles read ahead tokens) :
    ∀ token ∈ tokens, token.span.start < token.span.stop := by
  induction tiles with
  | ended between => exact fun _ member => absurd member List.not_mem_nil
  | token between line start stop written longest rest ih =>
      intro other member
      rcases List.mem_cons.mp member with rfl | member
      · have some := Text.byteCount_pos written.ne_nil
        rw [start, stop, Text.byteCount_append (_ ++ _)]
        omega
      · exact ih other member

/-- The tokens of a tiling start behind what has been read. -/
theorem le_start (tiles : Tiles read ahead tokens) :
    ∀ token ∈ tokens, Text.byteCount read ≤ token.span.start := by
  induction tiles with
  | ended between => exact fun _ member => absurd member List.not_mem_nil
  | token between line start stop written longest rest ih =>
      intro other member
      rcases List.mem_cons.mp member with rfl | member
      · rw [start, Text.byteCount_append]
        omega
      · have later := ih other member
        rw [Text.byteCount_append, Text.byteCount_append] at later
        omega

/-- The tokens of a tiling do not overlap and follow one another. -/
theorem ordered (tiles : Tiles read ahead tokens) :
    tokens.Pairwise fun earlier later => earlier.span.stop ≤ later.span.start := by
  induction tiles with
  | ended between => exact List.Pairwise.nil
  | token between line start stop written longest rest ih =>
      refine List.pairwise_cons.mpr ⟨?_, ih⟩
      rw [stop]
      exact rest.le_start

/-- Every token of a tiling covers its own text. -/
theorem written (tiles : Tiles read ahead tokens) :
    ∀ token ∈ tokens, ∃ body,
      Text.Between (read ++ ahead) token.span.start token.span.stop body ∧
        token.IsWritten body := by
  induction tiles with
  | ended between => exact fun _ member => absurd member List.not_mem_nil
  | @token read gap body ahead commented token others between line start stop written longest
      rest ih =>
      intro other member
      rcases List.mem_cons.mp member with rfl | member
      · exact ⟨body, ⟨read ++ gap, ahead, by simp, start.symm, stop.symm⟩, written⟩
      · have later := ih other member
        rw [List.append_assoc, List.append_assoc, ← List.append_assoc gap] at later
        exact later

/-- No token without quotes could go on. -/
theorem longest (tiles : Tiles read ahead tokens) :
    ∀ token ∈ tokens, token.quoted = false → ∀ before next after,
      read ++ ahead = before ++ next :: after → Text.byteCount before = token.span.stop →
        ¬Text.IsPlain (token.value.toList ++ [next]) := by
  induction tiles with
  | ended between => exact fun _ member => absurd member List.not_mem_nil
  | @token read gap body ahead commented token others between line start stop written longest
      rest ih =>
      intro other member plain before next after split offset
      have joined : read ++ gap ++ body ++ ahead = before ++ next :: after := by
        rw [← split]
        simp
      rcases List.mem_cons.mp member with rfl | member
      · obtain ⟨_, rfl⟩ := Text.append_inj_of_byteCount joined (stop.symm.trans offset.symm)
        exact longest plain next rfl
      · exact ih other member plain before next after joined offset

/-- The gaps of a tiling hold blanks and comments only. -/
theorem spaced (tiles : Tiles read ahead tokens) :
    Spaced (read ++ ahead) (Text.byteCount read) tokens := by
  induction tiles with
  | @ended read gap separator commented between =>
      exact ⟨gap, separator, commented, ⟨read, [], by simp, rfl, rfl⟩, between⟩
  | @token read gap body ahead commented token others between line start stop written longest
      rest ih =>
      refine ⟨⟨gap, commented, ⟨read, body ++ ahead, by simp, rfl, start.symm⟩, between, line⟩, ?_⟩
      rw [stop]
      rw [List.append_assoc, List.append_assoc, ← List.append_assoc gap] at ih
      exact ih

theorem tiling (tiles : Tiles [] ahead tokens) : Tiling ahead tokens where
  filled := tiles.filled
  ordered := tiles.ordered
  written := tiles.written
  longest := tiles.longest
  spaced := tiles.spaced

end Tiles

end Token

namespace Lexeme

/-- A lexeme without quotes has a plain value. -/
theorem Formed.isPlain {lexeme : Lexeme} {value : List Char} (formed : lexeme.Formed)
    (valued : lexeme.value? = some value) (bare : lexeme.isQuotation = false) :
    Text.IsPlain value := by
  rw [← text_of_value? valued bare]
  cases lexeme with
  | blank run => contradiction
  | comment body => contradiction
  | quotation mark content => contradiction
  | word run => exact Or.inr (Or.inr (Or.inr (Or.inr formed)))
  | symbols run => exact Or.inr (Or.inr (Or.inr (Or.inl formed)))
  | comma => exact Or.inr (Or.inl rfl)
  | colon => exact Or.inr (Or.inr (Or.inl rfl))
  | newline => exact Or.inl rfl

/-- A plain text has one kind only, and so whatever makes it longer goes on with its lexeme. -/
theorem continues_of_isPlain {lexeme : Lexeme} {value : List Char} {next : Char}
    (formed : lexeme.Formed) (valued : lexeme.value? = some value)
    (bare : lexeme.isQuotation = false) (plain : Text.IsPlain (value ++ [next])) :
    lexeme.continues next = true := by
  rw [← text_of_value? valued bare] at plain
  obtain ⟨head, tail, start⟩ := List.exists_cons_of_ne_nil formed.text_ne_nil
  have own (holds : Char → Bool) (all : ∀ character ∈ lexeme.text ++ [next], holds character = true) :
      holds head = true ∧ holds next = true :=
    ⟨all head (by simp [start]), all next (by simp)⟩
  have long (character : Char) : lexeme.text ++ [next] ≠ [character] := by simp [start]
  rcases plain with one | one | one | ⟨_, all⟩ | ⟨_, all, _⟩
  · exact absurd one (long _)
  · exact absurd one (long _)
  · exact absurd one (long _)
  · obtain ⟨first, last⟩ := own isSymbol all
    cases lexeme with
    | symbols run => exact last
    | word run =>
        have word := formed.2.1 head (by simp only [text] at start; simp [start])
        simp [isWordCharacter, first] at word
    | comma | colon | newline =>
        cases start
        contradiction
    | blank | comment | quotation => contradiction
  · obtain ⟨first, last⟩ := own isWordCharacter all
    cases lexeme with
    | word run => exact last
    | symbols run =>
        have symbol := formed.2 head (by simp only [text] at start; simp [start])
        simp [isWordCharacter, symbol] at first
    | comma | colon | newline =>
        cases start
        contradiction
    | blank | comment | quotation => contradiction

/-- What comes behind a comment begins with a newline. -/
theorem newline_of_comment {body : List Char} {others : List Lexeme}
    (stops : (comment body).Stops (others.flatMap text)) (behind : Cut others []) :
    ∀ lexeme ∈ others.head?, lexeme = .newline := by
  intro lexeme first
  obtain ⟨more, rfl⟩ := List.head?_eq_some_iff.mp first
  obtain ⟨head, tail, start⟩ := List.exists_cons_of_ne_nil behind.1.text_ne_nil
  have stop : (head != '\n') = false := stops head (by simp [start])
  obtain rfl : head = '\n' := by simpa using stop
  exact behind.1.eq_newline start

/-- The token of a lexeme is written as the lexeme. -/
theorem Formed.isWritten {lexeme : Lexeme} {value separator : List Char} {span : Span}
    (formed : lexeme.Formed) (valued : lexeme.value? = some value) :
    Token.IsWritten ⟨String.ofList separator, String.ofList value, lexeme.isQuotation, span⟩
      lexeme.text := by
  unfold Token.IsWritten
  dsimp only
  rw [String.toList_ofList]
  split
  · next quoted =>
      cases lexeme with
      | quotation mark content =>
          obtain ⟨quotes, spelled, spells⟩ := formed
          obtain rfl : Quoted.decode content = value := Option.some.inj valued
          rw [Quoted.decode_of_spells spells]
          exact ⟨mark, content, quotes, rfl, spells⟩
      | _ => contradiction
  · next bare =>
      have bare : lexeme.isQuotation = false := Bool.eq_false_iff.mpr bare
      rw [text_of_value? valued bare]
      exact ⟨rfl, formed.isPlain valued bare⟩

end Lexeme

namespace Token

/-- A lexeme without a value makes a gap longer, and a gap that has got a comment ends in front of a
newline. -/
theorem gap_append {gap pending : List Char} {lexeme : Lexeme} {others : List Lexeme}
    (between : Gap gap (String.ofList pending) false) (valued : lexeme.value? = none)
    (formed : lexeme.Formed) (stops : lexeme.Stops (others.flatMap Lexeme.text))
    (behind : Lexeme.Cut others []) :
    ∃ commented, Gap (gap ++ lexeme.text) (String.ofList (pendingAfter pending lexeme)) commented ∧
      (commented = true → ∀ next ∈ others.head?, next = .newline) := by
  generalize joined : String.ofList pending = separator at between
  cases between with
  | blank blanks =>
      obtain rfl := String.ofList_injective joined
      cases lexeme with
      | blank run =>
          refine ⟨false, .blank fun character member => ?_, by simp⟩
          exact (List.mem_append.mp member).elim (blanks character) (formed.2 character)
      | comment body =>
          exact ⟨true, .comment blanks formed, fun _ => Lexeme.newline_of_comment stops behind⟩
      | _ => contradiction

/-- The tokens of lexemes tile the text of the lexemes, with the gap in front of them. -/
theorem tiles_ofLexemes {read gap pending : List Char} {commented : Bool} {lexemes : List Lexeme}
    (cut : Lexeme.Cut lexemes []) (between : Gap gap (String.ofList pending) commented)
    (line : commented = true → ∀ lexeme ∈ lexemes.head?, lexeme = .newline) :
    Tiles read (gap ++ lexemes.flatMap Lexeme.text)
      (ofLexemes (Text.byteCount (read ++ gap)) pending lexemes) := by
  induction lexemes generalizing read gap pending commented with
  | nil =>
      rw [List.flatMap_nil, List.append_nil]
      exact .ended between
  | cons lexeme others ih =>
      obtain ⟨formed, stops, behind⟩ := cut
      rw [List.append_nil] at stops
      rw [List.flatMap_cons, ← List.append_assoc gap]
      cases valued : lexeme.value? with
      | none =>
          -- Behind a comment comes a newline, and so the gap has no comment yet.
          have uncommented : commented = false := by
            rw [Bool.eq_false_iff]
            intro behindComment
            rw [line behindComment lexeme rfl] at valued
            contradiction
          rw [uncommented] at between
          obtain ⟨commented, longer, line⟩ := gap_append between valued formed stops behind
          rw [ofLexemes_of_none valued, ← Text.byteCount_append, List.append_assoc read]
          exact ih behind longer line
      | some value =>
          have follows := @ih (read ++ gap ++ lexeme.text) [] [] false behind (.blank (by simp))
            (by simp)
          rw [List.nil_append, List.append_nil] at follows
          rw [ofLexemes_of_some valued, ← Text.byteCount_append]
          refine .token between ?_ rfl ?_ (formed.isWritten valued) ?_ follows
          · intro behindComment
            obtain rfl := line behindComment lexeme rfl
            obtain rfl := Option.some.inj valued
            rfl
          · exact (Text.byteCount_append _ _).symm
          · intro bare next first plain
            rw [String.toList_ofList] at plain
            have goes := Lexeme.continues_of_isPlain formed valued bare plain
            rw [stops next first] at goes
            contradiction

end Token

/-- Whenever a source can be cut into tokens, its tokens tile it. -/
theorem tiling_tokenize {source : String} {tokens : List Token}
    (cut : tokenize source = .ok tokens) : Token.Tiling source.toList tokens := by
  have lexed := Lexeme.cut_scan source.toList
  have tiled := Lexeme.flatMap_text_append_scan source.toList
  unfold tokenize at cut
  split at cut
  · next lexemes scanned =>
      rw [scanned] at lexed tiled
      rw [List.append_nil] at tiled
      obtain rfl := Except.ok.inj cut
      have tiles := @Token.tiles_ofLexemes [] [] [] false lexemes lexed (.blank (by simp)) (by simp)
      rw [List.nil_append, tiled] at tiles
      exact tiles.tiling
  · contradiction

/-- A quotation with an escape and a letter of two bytes stands in front of a comment. -/
theorem tiling_tokenize_letter :
    ∃ tokens, tokenize "A ->'\\'é' # \"x\n" = .ok tokens ∧
      Token.Tiling "A ->'\\'é' # \"x\n".toList tokens := by
  have cut : tokenize "A ->'\\'é' # \"x\n" =
      .ok [⟨"", "A", false, .covering 0 1⟩, ⟨" ", "->", false, .covering 2 2⟩,
        ⟨"", "'é", true, .covering 4 6⟩, ⟨"", "\n", false, .covering 15 1⟩] := by
    decide +kernel
  exact ⟨_, cut, tiling_tokenize cut⟩

end Lifeline
