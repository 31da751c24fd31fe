import Mathlib.Data.List.DropRight
import Lifeline.Proofs.Lexemes

/-! The tokens of two sources joined by a newline are those of both, with the newline between. -/

namespace Lifeline

/-- The span moves on by a number of bytes. -/
def Span.shift (bytes : Nat) (span : Span) : Span :=
  ⟨span.start + bytes, span.stop + bytes, Nat.add_le_add_right span.ordered bytes⟩

/-- A token that is shifted stands further behind in its source. -/
def Token.shift (bytes : Nat) (token : Token) : Token :=
  { token with span := token.span.shift bytes }

def Label.shift (bytes : Nat) (label : Label) : Label :=
  { label with span := label.span.shift bytes }

/-- Only the labels of a diagnostic have a place in the source. -/
def Diagnostic.shift (bytes : Nat) (diagnostic : Diagnostic) : Diagnostic :=
  { diagnostic with labels := diagnostic.labels.map (Label.shift bytes) }

def OpenQuotation.shift (bytes : Nat) (quotation : OpenQuotation) : OpenQuotation :=
  { quotation with span := quotation.span.shift bytes }

theorem OpenQuotation.diagnostic_shift (bytes : Nat) (quotation : OpenQuotation) :
    (quotation.shift bytes).diagnostic = quotation.diagnostic.shift bytes := rfl

/-- A shift moves the offset and keeps the size. -/
theorem Span.shift_covering (bytes offset size : Nat) :
    (covering offset size).shift bytes = covering (offset + bytes) size := by
  simp only [shift, covering, mk.injEq, true_and]
  omega

namespace Lexeme

/-- This is the last lexeme of a text, if there is any. -/
def last? (source : List Char) : Option Lexeme := (scan source).1.getLast?

variable {lexeme previous : Lexeme} {lexemes : List Lexeme}

/-- A lexeme with a value does not end in a blank. -/
theorem Formed.not_isBlank_getLast? {value : List Char} (formed : lexeme.Formed)
    (valued : lexeme.value? = some value) :
    ∀ character ∈ lexeme.text.getLast?, isBlank character = false := by
  intro character final
  have member := List.mem_of_getLast? final
  rw [Bool.eq_false_iff]
  intro blank
  obtain ⟨_, unquoted⟩ := plain_of_isBlank blank
  cases lexeme with
  | blank run => contradiction
  | comment body => contradiction
  | quotation mark content =>
      rw [text, ← List.cons_append, List.getLast?_concat] at final
      obtain rfl := Option.some.inj final
      exact unquoted formed.1
  | word run => exact (plain_of_isWordCharacter (formed.2.1 character member)).1 blank
  | symbols run => exact (plain_of_isSymbol (formed.2 character member)).2.2 blank
  | comma | colon | newline =>
      rw [List.mem_singleton.mp member] at blank
      contradiction

/-- Blanks go on with blanks and with a comment, and so only a lexeme with a value stands in front
of them. -/
theorem exists_value?_of_stops_blank {run : List Char} (formed : (Lexeme.blank run).Formed)
    (stops : previous.Stops run) : ∃ value, previous.value? = some value := by
  obtain ⟨some, all⟩ := formed
  obtain ⟨first, rest, rfl⟩ := List.exists_cons_of_ne_nil some
  have space := all first List.mem_cons_self
  have stopped := stops first rfl
  cases previous with
  | blank earlier =>
      rw [continues, space] at stopped
      contradiction
  | comment body =>
      have newline : first = '\n' := by simpa [continues] using stopped
      rw [newline] at space
      contradiction
  | _ => exact ⟨_, rfl⟩

/-- Blanks at the end are those behind the last character that is none. -/
theorem rtakeWhile_append_of_stop {before run : List Char}
    (all : ∀ character ∈ run, isBlank character = true)
    (stop : ∀ character ∈ before.getLast?, isBlank character = false) :
    (before ++ run).rtakeWhile isBlank = run := by
  have ended : ∀ character ∈ before.reverse.head?, isBlank character = false := by
    rw [List.head?_reverse]
    exact stop
  have every : ∀ character ∈ run.reverse, isBlank character = true := by
    simpa using all
  rw [List.rtakeWhile, List.reverse_append, (takeWhile_append_of_stop every ended).1,
    List.reverse_reverse]

/-- Lexemes end with the last character of the last one. -/
theorem getLast?_flatMap_text_concat (before : List Lexeme) (formed : previous.Formed) :
    ((before ++ [previous]).flatMap text).getLast? = previous.text.getLast? := by
  rw [List.flatMap_append, List.flatMap_singleton, List.getLast?_append_of_ne_nil]
  exact formed.text_ne_nil

end Lexeme

namespace Token

variable {lexemes : List Lexeme}

/-- Nothing is pending behind a comment. -/
theorem foldl_pendingAfter_of_comment {body : List Char}
    (final : lexemes.getLast? = some (.comment body)) : lexemes.foldl pendingAfter [] = [] := by
  obtain ⟨before, rfl⟩ := List.getLast?_eq_some_iff.mp final
  rw [List.foldl_append]
  rfl

/-- Unless a text ends in a comment, the blanks that it ends in are pending behind it. -/
theorem foldl_pendingAfter (cut : Lexeme.Cut lexemes [])
    (plain : ∀ body, lexemes.getLast? ≠ some (.comment body)) :
    lexemes.foldl pendingAfter [] = (lexemes.flatMap Lexeme.text).rtakeWhile Lexeme.isBlank := by
  rcases List.eq_nil_or_concat lexemes with rfl | ⟨before, last, rfl⟩
  · rfl
  rw [List.concat_eq_append] at cut plain ⊢
  obtain ⟨front, formed, _, _⟩ := Lexeme.cut_append.mp cut
  rw [List.foldl_append, List.foldl_cons, List.foldl_nil]
  cases valued : last.value? with
  | some value =>
      have stop : ∀ character ∈ ((before ++ [last]).flatMap Lexeme.text).getLast?,
          Lexeme.isBlank character = false := by
        rw [Lexeme.getLast?_flatMap_text_concat before formed]
        exact formed.not_isBlank_getLast? valued
      have none := Lexeme.rtakeWhile_append_of_stop (List.forall_mem_nil _) stop
      rw [List.append_nil] at none
      rw [none, pendingAfter_of_value? valued]
  | none =>
      cases last with
      | comment body => exact absurd List.getLast?_concat (plain body)
      | blank run =>
          -- Nothing is pending in front of the blanks.
          have nothing : before.foldl pendingAfter [] = [] ∧
              ∀ character ∈ (before.flatMap Lexeme.text).getLast?,
                Lexeme.isBlank character = false := by
            rcases List.eq_nil_or_concat before with rfl | ⟨earlier, previous, rfl⟩
            · simp
            rw [List.concat_eq_append] at front ⊢
            obtain ⟨_, other, stops, _⟩ := Lexeme.cut_append.mp front
            simp only [List.flatMap_nil, List.flatMap_cons, List.nil_append, List.append_nil]
              at stops
            obtain ⟨value, valued⟩ := Lexeme.exists_value?_of_stops_blank formed stops
            rw [List.foldl_append, List.foldl_cons, List.foldl_nil, pendingAfter_of_value? valued,
              Lexeme.getLast?_flatMap_text_concat earlier other]
            exact ⟨rfl, other.not_isBlank_getLast? valued⟩
          rw [nothing.1, List.flatMap_append, List.flatMap_singleton,
            Lexeme.text, Lexeme.rtakeWhile_append_of_stop formed.2 nothing.2]
          rfl
      | _ => contradiction

/-- Lexemes that stand further on make tokens that stand further on. -/
theorem ofLexemes_add (bytes offset : Nat) (pending : List Char) (lexemes : List Lexeme) :
    ofLexemes (offset + bytes) pending lexemes =
      (ofLexemes offset pending lexemes).map (shift bytes) := by
  induction lexemes generalizing offset pending with
  | nil => rfl
  | cons lexeme rest ih =>
      have further : offset + bytes + Text.byteCount lexeme.text =
          offset + Text.byteCount lexeme.text + bytes := by
        omega
      cases valued : lexeme.value? with
      | none => rw [ofLexemes_of_none valued, ofLexemes_of_none valued, further, ih]
      | some value =>
          rw [ofLexemes_of_some valued, ofLexemes_of_some valued, further, ih, List.map_cons,
            shift, Span.shift_covering]

end Token

/-- The blanks at the end of a source are waiting for its next token, unless they belong to a
comment. -/
def waiting (source : String) : String :=
  match Lexeme.last? source.toList with
  | some (.comment _) => ""
  | _ => String.ofList (source.toList.rtakeWhile Lexeme.isBlank)

/-- Without a comment at the end, the blanks at the end of a source are waiting. -/
theorem waiting_of_not_comment {source : String}
    (plain : ∀ body, Lexeme.last? source.toList ≠ some (.comment body)) :
    waiting source = String.ofList (source.toList.rtakeWhile Lexeme.isBlank) := by
  rw [waiting]
  split
  · next body final => exact absurd final (plain body)
  · rfl

/-- What a source leaves behind is a matter of its text and its last lexeme. -/
theorem ofList_foldl_pendingAfter_scan {source : String}
    (ended : (Lexeme.scan source.toList).2 = []) :
    String.ofList ((Lexeme.scan source.toList).1.foldl Token.pendingAfter []) = waiting source := by
  obtain ⟨cut, tiled⟩ := Lexeme.cut_of_ended ended
  by_cases commented : ∃ body, Lexeme.last? source.toList = some (.comment body)
  · obtain ⟨body, final⟩ := commented
    rw [waiting, final, Token.foldl_pendingAfter_of_comment final]
  · rw [not_exists] at commented
    rw [waiting_of_not_comment commented, Token.foldl_pendingAfter cut commented, tiled]

/-- A newline ends the last lexeme of a text that is read to its end. -/
theorem Lexeme.scan_append_newline {source : List Char} (ended : (scan source).2 = [])
    (rest : List Char) :
    scan (source ++ '\n' :: rest) =
      ((scan source).1 ++ .newline :: (scan rest).1, (scan rest).2) := by
  obtain ⟨cut, tiled⟩ := cut_of_ended ended
  have scanned := scan_of_cut (cut.newline rest)
  rw [tiled, scan_newline] at scanned
  exact scanned

/-- A source that is cut into tokens is cut into the same tokens in front of a newline. The newline
is the next token, and what follows it is cut, or refused, as it is by itself, only further on. -/
theorem tokenize_append_newline {first : String} {tokens : List Token}
    (cut : tokenize first = .ok tokens) (second : String) :
    (∀ others, tokenize second = .ok others →
      tokenize (first ++ "\n" ++ second) = .ok (tokens ++
        { separator := waiting first
          value := "\n"
          quoted := false
          span := .covering first.utf8ByteSize 1 } ::
        others.map (Token.shift (first.utf8ByteSize + 1)))) ∧
    ∀ quotation, tokenize second = .error quotation →
      ∃ moved, tokenize (first ++ "\n" ++ second) = .error moved ∧
        moved.diagnostic = quotation.diagnostic.shift (first.utf8ByteSize + 1) := by
  obtain ⟨ended, rfl⟩ := tokenize_eq_ok_iff.mp cut
  have size : Text.byteCount ((Lexeme.scan first.toList).1.flatMap Lexeme.text) =
      first.utf8ByteSize := by
    rw [(Lexeme.cut_of_ended ended).2, Text.byteCount_toList]
  have scanned := Lexeme.scan_append_newline ended second.toList
  have joined : (first ++ "\n" ++ second).toList = first.toList ++ '\n' :: second.toList := by
    simp
  rw [← joined] at scanned
  constructor
  · intro others cutSecond
    obtain ⟨endedSecond, rfl⟩ := tokenize_eq_ok_iff.mp cutSecond
    refine tokenize_eq_ok_iff.mpr ⟨by rw [scanned, endedSecond], ?_⟩
    rw [scanned, Token.ofLexemes_append, Token.ofLexemes_of_some rfl, size, Nat.zero_add,
      ofList_foldl_pendingAfter_scan ended, ← Token.ofLexemes_add, Nat.zero_add]
    rfl
  · intro quotation refused
    obtain ⟨mark, rest, left, rfl⟩ := tokenize_eq_error_iff.mp refused
    refine ⟨_, tokenize_eq_error_iff.mpr ⟨mark, rest, by rw [scanned, left], rfl⟩, ?_⟩
    rw [← OpenQuotation.diagnostic_shift, OpenQuotation.shift, Span.shift_covering, scanned,
      List.flatMap_append, Text.byteCount_append, size, List.flatMap_cons, Text.byteCount_append,
      Nat.add_comm _ (first.utf8ByteSize + 1), Nat.add_assoc]
    rfl

/-- A carriage return waits for the newline, and a letter of two bytes counts twice. -/
theorem tokenize_append_newline_letter :
    tokenize "é\r" = .ok [⟨"", "é", false, .covering 0 2⟩] ∧
      tokenize ("é\r" ++ "\n" ++ " 'x'") =
        .ok [⟨"", "é", false, .covering 0 2⟩, ⟨"\r", "\n", false, .covering 3 1⟩,
          ⟨" ", "x", true, .covering 5 3⟩] ∧
      ∃ quotation, tokenize ("é\r" ++ "\n" ++ " 'x") = .error quotation ∧
        quotation.diagnostic.labels =
          [⟨.covering 5 2, "string starts here and never ends", true⟩] := by
  have cut : tokenize "é\r" = .ok [⟨"", "é", false, .covering 0 2⟩] := by decide +kernel
  have closed : tokenize " 'x'" = .ok [⟨" ", "x", true, .covering 1 3⟩] := by decide +kernel
  have left : tokenize " 'x" = .error ⟨'\x27', .covering 1 2⟩ := by decide +kernel
  have joined := (tokenize_append_newline cut _).1 _ closed
  obtain ⟨moved, refused, shifted⟩ := (tokenize_append_newline cut _).2 _ left
  refine ⟨cut, joined.trans (by decide +kernel), moved, refused, ?_⟩
  rw [shifted]
  decide

end Lifeline
