import Mathlib.Data.List.TakeDrop
import Lifeline.Statement.Reading

/-! What a line says depends neither on spans nor on the separator in front of it. -/

namespace Lifeline

/-- A split of changed items gives the parts changed. -/
theorem splitOnP_map {A B : Type} {holds : B → Bool} (change : A → B) (items : List A) :
    (items.map change).splitOnP holds =
      (items.splitOnP (holds ∘ change)).map (List.map change) := by
  induction items with
  | nil => simp
  | cons item rest ih =>
      rw [List.map_cons, List.splitOnP_cons_eq_if_modifyHead, ih,
        List.splitOnP_cons_eq_if_modifyHead, Function.comp_apply]
      split
      · rfl
      · cases rest.splitOnP (holds ∘ change) <;> rfl

namespace Token

/-- The place of the token is left out. -/
def spanless (token : Token) : Token := { token with span := .origin }

@[simp] theorem value_spanless (token : Token) : token.spanless.value = token.value := rfl

@[simp] theorem separator_spanless (token : Token) :
    token.spanless.separator = token.separator := rfl

@[simp] theorem is_spanless (token : Token) (text : String) :
    token.spanless.is text = token.is text := rfl

/-- The blanks in front of the token are left out. -/
def tight (token : Token) : Token := { token with separator := "" }

end Token

/-- The word that is to blame is kept without its place. -/
def Misreading.spanless : Misreading → Misreading
  | .unknownTerminator word => .unknownTerminator word.spanless
  | .strayWord word => .strayWord word.spanless
  | .noStatement => .noStatement
  | .noTerminator => .noTerminator
  | .noteArity style arity given => .noteArity style arity given

namespace Line

/-- An unquoted newline ends the lines in front of it. -/
theorem split_append_cons (before after : List Token) {token : Token}
    (breaks : token.isLineBreak = true) :
    split (before ++ token :: after) = split before ++ split after := by
  rw [split, List.splitOnP_append_cons before after breaks, List.filter_append, split, split]

/-- The places of all tokens are left out. -/
def spanless (tokens : List Token) : List Token := tokens.map Token.spanless

section Spanless

variable (tokens : List Token)

@[simp] theorem spanless_cons (first : Token) (rest : List Token) :
    spanless (first :: rest) = first.spanless :: spanless rest := rfl

@[simp] theorem spanless_eq_nil_iff : spanless tokens = [] ↔ tokens = [] := List.map_eq_nil_iff

@[simp] theorem text_spanless : text (spanless tokens) = text tokens := by
  cases tokens with
  | nil => rfl
  | cons first rest => simp [text, spanless, Function.comp_def]

@[simp] theorem names_spanless : names (spanless tokens) = names tokens := by
  rw [names, spanless, splitOnP_map, List.map_map, names]
  congr 2
  funext part
  exact text_spanless part

@[simp] theorem mentions_spanless : mentions (spanless tokens) = mentions tokens := by
  rw [mentions, names_spanless, mentions]

@[simp] theorem dropWord_spanless (word : String) :
    dropWord word (spanless tokens) = spanless (dropWord word tokens) := by
  cases tokens with
  | nil => rfl
  | cons first rest =>
      rw [spanless_cons, dropWord, dropWord, Token.is_spanless]
      cases first.is word <;> rfl

theorem cutAt?_spanless (word : String) :
    cutAt? word (spanless tokens) = (cutAt? word tokens).map (Prod.map spanless spanless) := by
  simp only [cutAt?, List.span_eq_takeWhile_dropWhile, spanless, List.takeWhile_map,
    List.dropWhile_map, Function.comp_def, Token.is_spanless]
  cases tokens.dropWhile fun token => !token.is word <;> rfl

theorem cutLabel_spanless :
    cutLabel (spanless tokens) = Prod.map spanless id (cutLabel tokens) := by
  rw [cutLabel, cutAt?_spanless, cutLabel]
  cases cutAt? ":" tokens with
  | none => rfl
  | some parts => simp [Prod.map]

theorem cutArrow?_spanless : cutArrow? (spanless tokens) =
    (cutArrow? tokens).map (Prod.map spanless (Prod.map id spanless)) := by
  induction tokens with
  | nil => rfl
  | cons first rest ih =>
      rw [spanless_cons, cutArrow?, cutArrow?, Token.value_spanless]
      cases Arrow.ofOperator? first.value with
      | some arrow => rfl
      | none =>
          rw [ih]
          cases cutArrow? rest <;> rfl

@[simp] theorem mention?_spanless : mention? (spanless tokens) = mention? tokens := by
  cases tokens with
  | nil => rfl
  | cons first rest =>
      rw [spanless_cons, mention?, mention?, Token.value_spanless, text_spanless, ← spanless_cons,
        text_spanless]

theorem any_is_spanless (word : String) :
    (spanless tokens).any (fun token => token.is word) = tokens.any fun token => token.is word := by
  simp [spanless, List.any_map, Function.comp_def]

@[simp] theorem message?_spanless : message? (spanless tokens) = message? tokens := by
  rw [message?, cutArrow?_spanless, message?]
  cases cutArrow? tokens with
  | none => rfl
  | some parts =>
      obtain ⟨before, arrow, after⟩ := parts
      simp [any_is_spanless, cutLabel_spanless]

@[simp] theorem marker?_spanless : marker? (spanless tokens) = marker? tokens := by
  rw [marker?, spanless, List.getLast?_map, ← List.map_dropLast, marker?]
  cases tokens.getLast? with
  | none => rfl
  | some last =>
      cases tokens.dropLast with
      | nil => rfl
      | cons first rest =>
          have same := text_spanless (first :: rest)
          rw [spanless, List.map_cons] at same
          simp [same]

@[simp] theorem blockLabel_spanless : blockLabel (spanless tokens) = blockLabel tokens := by
  rw [blockLabel, dropWord_spanless, text_spanless, blockLabel]

/-- Spans have no part in reading terminators. -/
theorem readTerminators_spanless :
    readTerminators (spanless tokens) =
      (readTerminators tokens).mapError Misreading.spanless := by
  cases tokens with
  | nil => rfl
  | cons word rest =>
      rw [spanless_cons, readTerminators, readTerminators, Token.value_spanless]
      cases Terminator.ofName? word.value <;> rfl

/-- Spans have no part in reading a split. -/
theorem readOtherwise_spanless :
    readOtherwise (spanless tokens) = (readOtherwise tokens).mapError Misreading.spanless := by
  cases tokens with
  | nil => rfl
  | cons first rest =>
      simp only [spanless_cons, readOtherwise, Token.is_spanless, blockLabel_spanless,
        text_spanless]
      repeat' split
      all_goals rfl

@[simp] theorem jump?_spanless : jump? (spanless tokens) = jump? tokens := by
  rw [jump?, spanless, List.getLast?_map, ← List.map_dropLast, jump?]
  cases tokens.getLast? with
  | none => rfl
  | some last =>
      cases tokens.dropLast with
      | nil => rfl
      | cons word target =>
          have same := text_spanless target
          rw [spanless] at same
          simp [same]

/-- Spans have no part in reading a note. -/
theorem readNote_spanless (style : NoteStyle) :
    readNote style (spanless tokens) = (readNote style tokens).mapError Misreading.spanless := by
  cases tokens with
  | nil => rfl
  | cons word rest =>
      rw [spanless_cons, readNote, readNote, Token.value_spanless, cutAt?_spanless]
      cases NoteForm.ofWord? style word.value with
      | none => rfl
      | some form =>
          cases cutAt? ":" rest with
          | none => rfl
          | some parts =>
              obtain ⟨before, label⟩ := parts
              have same : mentions (form.filler.elim (spanless before) fun filler =>
                  dropWord filler (spanless before)) =
                  mentions (form.filler.elim before fun filler => dropWord filler before) := by
                cases form.filler <;> simp
              simp only [Option.map_some, Prod.map, same, text_spanless]
              split <;> rfl

@[simp] theorem withMentions?_spanless (statement : List Mention → Statement) :
    withMentions? (spanless tokens) statement = withMentions? tokens statement := by
  simp only [withMentions?, spanless_eq_nil_iff, mentions_spanless]

/-- Spans have no part in reading any keyword form. -/
theorem readForm_spanless (keyword : Keyword) :
    readForm keyword (spanless tokens) =
      (readForm keyword tokens).mapError Misreading.spanless := by
  cases keyword with
  | terminators =>
      rw [readForm, readTerminators_spanless, readForm]
      cases readTerminators tokens <;> rfl
  | otherwise =>
      rw [readForm, readOtherwise_spanless, readForm]
      cases readOtherwise tokens <;> rfl
  | note style =>
      rw [readForm, readNote_spanless, readForm]
      cases readNote style tokens <;> rfl
  | leave =>
      simp only [readForm, spanless_eq_nil_iff, withMentions?_spanless]
      split <;> rfl
  | _ => simp [readForm, Except.mapError]

/-- Spans have no part in finding the keyword form. -/
theorem readKeyword_spanless :
    readKeyword (spanless tokens) = (readKeyword tokens).mapError Misreading.spanless := by
  cases tokens with
  | nil => rfl
  | cons first arguments =>
      rw [spanless_cons, readKeyword, readKeyword, Token.value_spanless]
      cases Keyword.ofWord? first.value with
      | none => rfl
      | some keyword => exact readForm_spanless arguments keyword

end Spanless

/-- The blanks in front of a line are left out. -/
def tight : Line → Line
  | [] => []
  | first :: rest => first.tight :: rest

section Tight

variable (line : Line)

@[simp] theorem text_tight : text (tight line) = text line := by
  cases line <;> rfl

theorem cutArrow?_tight :
    cutArrow? (tight line) = (cutArrow? line).map (Prod.map tight id) := by
  cases line with
  | nil => rfl
  | cons first rest =>
      rw [tight, cutArrow?, cutArrow?, Token.tight]
      cases Arrow.ofOperator? first.value with
      | some arrow => rfl
      | none => cases cutArrow? rest <;> rfl

theorem mention?_tight : mention? (tight line) = mention? line := by
  cases line <;> rfl

theorem any_is_tight (word : String) :
    (tight line).any (fun token => token.is word) = line.any fun token => token.is word := by
  cases line <;> rfl

/-- The separator in front of a line has no part in reading a message. -/
theorem message?_tight : message? (tight line) = message? line := by
  rw [message?, cutArrow?_tight, message?]
  cases cutArrow? line with
  | none => rfl
  | some parts =>
      obtain ⟨before, arrow, after⟩ := parts
      simp [any_is_tight, mention?_tight]

/-- The separator in front of a line has no part in reading a marker. -/
theorem marker?_tight : marker? (tight line) = marker? line := by
  match line with
  | [] => rfl
  | [only] => rfl
  | first :: second :: rest =>
      rw [tight, marker?, marker?, List.getLast?_cons_cons, List.getLast?_cons_cons,
        List.dropLast_cons_cons, List.dropLast_cons_cons]
      rfl

/-- The separator in front of a line has no part in finding the keyword form. -/
theorem readKeyword_tight : readKeyword (tight line) = readKeyword line := by
  cases line <;> rfl

end Tight

/-- What is left of a line without its places and the blanks in front of it. -/
def bare (line : Line) : Line := tight (spanless line)

@[simp] theorem text_bare (line : Line) : text (bare line) = text line := by
  rw [bare, text_tight, text_spanless]

end Line

/-- The line and the cause of a refusal are kept bare. -/
def Refusal.bare (refusal : Refusal) : Refusal where
  line := Line.bare refusal.line
  cause := refusal.cause.spanless

/-- A bare line says what the line says, and is refused for the same cause. -/
theorem Line.read_bare (line : Line) :
    Line.read (Line.bare line) = (Line.read line).mapError Refusal.bare := by
  have keyword := (readKeyword_tight (spanless line)).trans (readKeyword_spanless line)
  have free : readFree (bare line) = readFree line := by
    rw [readFree, bare, message?_tight, message?_spanless, marker?_tight, marker?_spanless,
      readFree]
  rw [read, free, bare, keyword, read]
  cases readKeyword line with
  | error cause => rfl
  | ok entry =>
      cases entry with
      | some entry => rfl
      | none => cases readFree line <;> rfl

end Lifeline
