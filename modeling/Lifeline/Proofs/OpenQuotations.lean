import Lifeline.Proofs.Joining

/-! A source is refused exactly if one of its quotations never ends. -/

namespace Lifeline

namespace Quoted

/-- No mark of the given kind closes the content, if it is read from left to right and each
backslash takes the next character along, unless that character ends a line or there is none. -/
inductive Unclosed (mark : Char) : List Char → Prop where
  | nil : Unclosed mark []
  | escaped {content : List Char} (character : Char) (plain : endsLine character = false)
      (rest : Unclosed mark content) : Unclosed mark ('\\' :: character :: content)
  | kept {content : List Char} (character : Char) (ends : endsLine character = true)
      (rest : Unclosed mark (character :: content)) : Unclosed mark ('\\' :: character :: content)
  | last : Unclosed mark ['\\']
  | literal {content : List Char} (character : Char) (differs : character ≠ mark)
      (plain : character ≠ '\\') (rest : Unclosed mark content) : Unclosed mark (character :: content)

/-- The content ends in a backslash that is not taken along by another one. -/
def dangles : List Char → Bool
  | [] => false
  | ['\\'] => true
  | '\\' :: next :: rest => if endsLine next then dangles (next :: rest) else dangles rest
  | _ :: rest => dangles rest

/-- A dangling backslash takes the first mark behind it along. -/
def completed (mark : Char) (content : List Char) : List Char :=
  if dangles content then content ++ [mark] else content

/-- These marks close a content that is not closed. -/
def missing (mark : Char) (content : List Char) : List Char :=
  if dangles content then [mark, mark] else [mark]

variable {mark : Char} {content : List Char}

/-- The missing marks complete a content and close it. -/
theorem append_missing (mark : Char) (content : List Char) :
    content ++ missing mark content = completed mark content ++ [mark] := by
  unfold missing completed
  split
  · simp
  · rfl

/-- The reader finds no end of a content exactly if there is none. -/
theorem close?_eq_none_iff (quotes : isMark mark = true) :
    close? mark content = none ↔ Unclosed mark content := by
  constructor
  · intro left
    fun_induction close? mark content with
    | case1 => exact .nil
    | case2 next rest ends ih => exact .kept next ends (ih (Option.map_eq_none_iff.mp left))
    | case3 next rest plain ih =>
        exact .escaped next (Bool.eq_false_iff.mpr plain) (ih (Option.map_eq_none_iff.mp left))
    | case4 rest other => contradiction
    | case5 head rest other differs ih =>
        have behind := ih (Option.map_eq_none_iff.mp left)
        by_cases escape : head = '\\'
        · cases rest with
          | nil =>
              rw [escape]
              exact .last
          | cons next more => exact absurd rfl (other next more escape)
        · exact .literal head differs escape behind
  · intro unclosed
    induction unclosed with
    | nil => rfl
    | escaped character plain rest ih => rw [close?, if_neg (by simp [plain]), ih, Option.map_none]
    | kept character ends rest ih => rw [close?, if_pos ends, ih, Option.map_none]
    | last =>
        have differs : '\\' ≠ mark := (ne_backslash_of_isMark quotes).symm
        rw [close?, if_neg differs]
        · rfl
        · simp
    | literal character differs plain rest ih =>
        rw [close?, if_neg differs, ih, Option.map_none]
        exact fun _ _ escape => absurd escape plain

/-- What stands in front of the part that dangles has no part in it. -/
theorem completed_append (mark : Char) (front : List Char)
    (same : dangles (front ++ content) = dangles content) :
    completed mark (front ++ content) = front ++ completed mark content := by
  unfold completed
  rw [same]
  split
  · rw [List.append_assoc]
  · rfl

/-- Once its dangling backslash is dealt with, a content without an end spells a value. -/
theorem Unclosed.spells (quotes : isMark mark = true) (unclosed : Unclosed mark content) :
    ∃ value, Spells mark (completed mark content) value := by
  induction unclosed with
  | nil => exact ⟨[], .nil⟩
  | @escaped content character plain rest ih =>
      obtain ⟨value, spells⟩ := ih
      have same : dangles (['\\', character] ++ content) = dangles content := by
        rw [List.cons_append, List.singleton_append, dangles, if_neg (by simp [plain])]
      have completes := completed_append mark ['\\', character] same
      rw [List.cons_append, List.singleton_append] at completes
      rw [completes]
      by_cases newline : character = 'n'
      · rw [newline]
        exact ⟨_, .newline spells⟩
      · exact ⟨_, .escaped character plain newline spells⟩
  | @kept content character ends rest ih =>
      obtain ⟨value, spells⟩ := ih
      have same : dangles (['\\'] ++ character :: content) = dangles (character :: content) := by
        rw [List.singleton_append, dangles, if_pos ends]
      have other : character ≠ '\\' := by
        rintro rfl
        contradiction
      have behind : completed mark (character :: content) = character :: completed mark content :=
        completed_append mark [character] (by simp [dangles, other])
      have completes := completed_append mark ['\\'] same
      rw [List.singleton_append] at completes
      rw [completes, behind]
      rw [behind] at spells
      exact ⟨_, .kept character ends spells⟩
  | last =>
      refine ⟨[mark], .escaped mark (endsLine_of_isMark quotes) ?_ .nil⟩
      rintro rfl
      contradiction
  | @literal content character differs plain rest ih =>
      obtain ⟨value, spells⟩ := ih
      have same : dangles ([character] ++ content) = dangles content := by
        simp [dangles, plain]
      have completes := completed_append mark [character] same
      rw [List.singleton_append] at completes
      rw [completes]
      exact ⟨_, .literal character differs plain spells⟩

end Quoted

namespace Lexeme

variable {source rest : List Char} {lexemes : List Lexeme} {mark : Char}

/-- The reader stops where no lexeme can be read. -/
theorem next?_scan (source : List Char) : next? (scan source).2 = none := by
  fun_induction scan source with
  | case1 source found => exact found
  | case2 source lexeme rest found lexemes unread scanned ih =>
      rw [scanned] at ih
      exact ih

/-- No lexeme can be read from an open quotation, but from any other text that is not empty. -/
theorem next?_cons_eq_none_iff :
    next? (mark :: rest) = none ↔ Quoted.isMark mark = true ∧ Quoted.Unclosed mark rest := by
  constructor
  · intro stuck
    rw [next?] at stuck
    split at stuck
    · contradiction
    split at stuck
    · next comment quotes =>
        exact ⟨quotes, (Quoted.close?_eq_none_iff quotes).mp (Option.map_eq_none_iff.mp stuck)⟩
    · repeat' split at stuck
      all_goals contradiction
  · rintro ⟨quotes, unclosed⟩
    have comment : mark ≠ '#' := by
      rintro rfl
      contradiction
    rw [next?, if_neg comment, if_pos quotes, (Quoted.close?_eq_none_iff quotes).mpr unclosed,
      Option.map_none]

/-- Lexemes that cut a text in front of some other text cut it by itself. -/
theorem Cut.alone (cut : Cut lexemes rest) : Cut lexemes [] :=
  cut.replace fun _ _ _ first => absurd first (by simp)

/-- Words and comments go on with a mark, and nothing else does. -/
theorem stops_mark_iff {lexeme : Lexeme} (quotes : Quoted.isMark mark = true) :
    lexeme.Stops (mark :: rest) ↔
      (∀ run, lexeme ≠ .word run) ∧ ∀ body, lexeme ≠ .comment body := by
  have only : lexeme.Stops (mark :: rest) ↔ lexeme.continues mark = false := by
    simp [Stops]
  rw [only]
  have kind : isBlank mark = false ∧ isSymbol mark = false ∧ isWordCharacter mark = true ∧
      mark ≠ '\n' := by
    simp only [Quoted.isMark, Bool.or_eq_true, beq_iff_eq] at quotes
    rcases quotes with rfl | rfl <;> decide
  obtain ⟨blank, symbol, word, newline⟩ := kind
  cases lexeme <;> simp [continues, blank, symbol, word, newline]

end Lexeme

/-- A quotation is left open in a source where its mark comes behind a text that can be cut into
tokens and does not end in a word or a comment, and nothing behind the mark closes it. -/
structure LeftOpen (source before : String) (mark : Char) (after : String) : Prop where
  joined : source = before ++ mark.toString ++ after
  quotes : Quoted.isMark mark = true
  read : ∃ tokens, tokenize before = .ok tokens
  behindWord : ∀ run, Lexeme.last? before.toList ≠ some (.word run)
  behindComment : ∀ body, Lexeme.last? before.toList ≠ some (.comment body)
  unclosed : Quoted.Unclosed mark after.toList

namespace LeftOpen

variable {source before after : String} {mark : Char}

/-- A source that is left open is what stands before the mark, the mark and the rest. -/
theorem toList_source (left : LeftOpen source before mark after) :
    source.toList = before.toList ++ mark :: after.toList := by
  rw [left.joined]
  simp

/-- The lexemes in front of the mark stop at it, and at whatever begins with it. -/
theorem cut (left : LeftOpen source before mark after) (rest : List Char) :
    Lexeme.Cut (Lexeme.scan before.toList).1 (mark :: rest) := by
  obtain ⟨tokens, read⟩ := left.read
  obtain ⟨ended, _⟩ := tokenize_eq_ok_iff.mp read
  have cut := Lexeme.cut_scan before.toList
  refine cut.replace fun lexeme final => (Lexeme.stops_mark_iff left.quotes).mpr ⟨?_, ?_⟩
  · rintro run rfl
    exact left.behindWord run final
  · rintro body rfl
    exact left.behindComment body final

/-- What stands before the open mark is cut without a rest. -/
theorem flatMap_text (left : LeftOpen source before mark after) :
    (Lexeme.scan before.toList).1.flatMap Lexeme.text = before.toList := by
  obtain ⟨tokens, read⟩ := left.read
  exact (Lexeme.cut_of_ended (tokenize_eq_ok_iff.mp read).1).2

/-- The reader comes to the mark and no further. -/
theorem scan_source (left : LeftOpen source before mark after) :
    Lexeme.scan source.toList = ((Lexeme.scan before.toList).1, mark :: after.toList) := by
  have scanned := Lexeme.scan_of_cut (left.cut after.toList)
  have stuck : Lexeme.scan (mark :: after.toList) = ([], mark :: after.toList) := by
    rw [Lexeme.scan]
    split
    · rfl
    · next found =>
        rw [Lexeme.next?_cons_eq_none_iff.mpr ⟨left.quotes, left.unclosed⟩] at found
        contradiction
  rw [left.flatMap_text, stuck, List.append_nil, ← left.toList_source] at scanned
  exact scanned

/-- The quotation with its missing marks is the last lexeme. -/
theorem scan_repaired (left : LeftOpen source before mark after) :
    Lexeme.scan (source ++ String.ofList (Quoted.missing mark after.toList)).toList =
      ((Lexeme.scan before.toList).1 ++
        [.quotation mark (Quoted.completed mark after.toList)], []) := by
  have closed : (Lexeme.quotation mark (Quoted.completed mark after.toList)).Formed :=
    ⟨left.quotes, left.unclosed.spells left.quotes⟩
  have alone : Lexeme.Cut [.quotation mark (Quoted.completed mark after.toList)] [] :=
    ⟨closed, fun _ _ => rfl, trivial⟩
  have scanned := Lexeme.scan_eq_of_cut (Lexeme.cut_append.mpr ⟨left.cut _, alone⟩)
  have text : (source ++ String.ofList (Quoted.missing mark after.toList)).toList =
      before.toList ++ mark :: (Quoted.completed mark after.toList ++ [mark]) := by
    rw [String.toList_append, String.toList_ofList, left.toList_source, List.append_assoc,
      List.cons_append, Quoted.append_missing]
  rw [List.flatMap_append, left.flatMap_text, List.flatMap_singleton, Lexeme.text, ← text]
    at scanned
  exact scanned

/-- The source is refused for the quotation, which reaches from its mark to the end. -/
theorem refused (left : LeftOpen source before mark after) :
    ∃ quotation, tokenize source = .error quotation ∧ quotation.mark = mark ∧
      quotation.span.start = before.utf8ByteSize ∧ quotation.span.stop = source.utf8ByteSize := by
  have scanned := left.scan_source
  refine ⟨_, tokenize_eq_error_iff.mpr ⟨mark, after.toList, by rw [scanned], rfl⟩, rfl, ?_, ?_⟩
  · rw [scanned, left.flatMap_text, Text.byteCount_toList]
    rfl
  · rw [scanned, left.flatMap_text, ← Text.byteCount_toList source, left.toList_source,
      Text.byteCount_append]
    rfl

/-- With its missing marks, the source has the tokens in front of the quotation and one more. -/
theorem repaired (left : LeftOpen source before mark after) {tokens : List Token}
    (read : tokenize before = .ok tokens) :
    tokenize (source ++ String.ofList (Quoted.missing mark after.toList)) = .ok (tokens ++
      [{ separator := waiting before
         value := String.ofList (Quoted.decode (Quoted.completed mark after.toList))
         quoted := true
         span := .between before.utf8ByteSize
          (source ++ String.ofList (Quoted.missing mark after.toList)).utf8ByteSize }]) := by
  obtain ⟨ended, rfl⟩ := tokenize_eq_ok_iff.mp read
  have scanned := left.scan_repaired
  have tiled := Lexeme.flatMap_text_append_scan
    (source ++ String.ofList (Quoted.missing mark after.toList)).toList
  rw [scanned, List.append_nil, List.flatMap_append, left.flatMap_text,
    List.flatMap_singleton] at tiled
  have size := congrArg Text.byteCount tiled
  rw [Text.byteCount_append, Text.byteCount_toList, Text.byteCount_toList] at size
  have place : Span.covering before.utf8ByteSize
      (Text.byteCount (Lexeme.quotation mark (Quoted.completed mark after.toList)).text) =
      .between before.utf8ByteSize
        (source ++ String.ofList (Quoted.missing mark after.toList)).utf8ByteSize := by
    simp only [Span.covering, Span.between, Span.mk.injEq, true_and, size]
    omega
  refine tokenize_eq_ok_iff.mpr ⟨by rw [scanned], ?_⟩
  rw [scanned, Token.ofLexemes_append, left.flatMap_text, Token.ofLexemes_of_some rfl,
    Nat.zero_add, Text.byteCount_toList, ofList_foldl_pendingAfter_scan ended, place]
  rfl

end LeftOpen

/-- Whatever a source is refused for is a quotation that is left open in it. -/
theorem exists_leftOpen {source : String} {quotation : OpenQuotation}
    (refused : tokenize source = .error quotation) :
    ∃ before mark after, LeftOpen source before mark after := by
  obtain ⟨mark, rest, stopped, -⟩ := tokenize_eq_error_iff.mp refused
  have cut := Lexeme.cut_scan source.toList
  have tiled := Lexeme.flatMap_text_append_scan source.toList
  have stuck := Lexeme.next?_scan source.toList
  rw [stopped] at cut tiled stuck
  obtain ⟨quotes, unclosed⟩ := Lexeme.next?_cons_eq_none_iff.mp stuck
  have scanned := Lexeme.scan_eq_of_cut cut.alone
  generalize (Lexeme.scan source.toList).1 = lexemes at cut tiled scanned
  have stops (lexeme : Lexeme) (final : Lexeme.last? (lexemes.flatMap Lexeme.text) = some lexeme) :
      lexeme.Stops (mark :: rest) := by
    rw [Lexeme.last?, scanned] at final
    exact cut.stops_last final
  refine ⟨String.ofList (lexemes.flatMap Lexeme.text), mark, String.ofList rest, ?_⟩
  refine
    { joined := ?_
      quotes := quotes
      read := ⟨_, tokenize_eq_ok_iff.mpr ⟨by rw [String.toList_ofList, scanned], rfl⟩⟩
      behindWord := ?_
      behindComment := ?_
      unclosed := by rwa [String.toList_ofList] }
  · apply String.toList_injective
    rw [← tiled]
    simp
  · rw [String.toList_ofList]
    exact fun run final => ((Lexeme.stops_mark_iff quotes).mp (stops _ final)).1 run rfl
  · rw [String.toList_ofList]
    exact fun body final => ((Lexeme.stops_mark_iff quotes).mp (stops _ final)).2 body rfl

/-- A source is refused exactly if a quotation is left open in it. The diagnostic points at the
quotation, from its mark to the end of the source; and the mark once more, or twice if the source
ends in a backslash that is not taken along, makes the quotation the last token. -/
theorem tokenize_leftOpen (source : String) :
    ((∃ quotation, tokenize source = .error quotation) ↔
      ∃ before mark after, LeftOpen source before mark after) ∧
    ∀ before mark after, LeftOpen source before mark after →
      (∃ quotation label, tokenize source = .error quotation ∧
        quotation.diagnostic.code.map Code.name = some "E001" ∧
        quotation.diagnostic.labels = [label] ∧ label.primary = true ∧
        label.span.start = before.utf8ByteSize ∧ label.span.stop = source.utf8ByteSize) ∧
      ∀ tokens, tokenize before = .ok tokens →
        tokenize (source ++ String.ofList (Quoted.missing mark after.toList)) = .ok (tokens ++
          [{ separator := waiting before
             value := String.ofList (Quoted.decode (Quoted.completed mark after.toList))
             quoted := true
             span := .between before.utf8ByteSize
              (source ++ String.ofList (Quoted.missing mark after.toList)).utf8ByteSize }]) := by
  refine ⟨⟨?_, ?_⟩, ?_⟩
  · rintro ⟨quotation, refused⟩
    exact exists_leftOpen refused
  · rintro ⟨before, mark, after, left⟩
    obtain ⟨quotation, refused, -⟩ := left.refused
    exact ⟨quotation, refused⟩
  · intro before mark after left
    obtain ⟨quotation, refused, -, start, stop⟩ := left.refused
    exact ⟨⟨quotation, _, refused, rfl, rfl, rfl, start, stop⟩, fun tokens read => left.repaired read⟩

/-- The backslash takes the first of the two marks along, and so it is a part of the value. -/
theorem tokenize_leftOpen_backslash :
    LeftOpen "a: 'b\\" "a: " '\x27' "b\\" ∧
      (∃ quotation, tokenize "a: 'b\\" = .error quotation) ∧
      tokenize "a: 'b\\''" =
        .ok [⟨"", "a", false, .covering 0 1⟩, ⟨"", ":", false, .covering 1 1⟩,
          ⟨" ", "b'", true, .covering 3 5⟩] := by
  have read : tokenize "a: " =
      .ok [⟨"", "a", false, .covering 0 1⟩, ⟨"", ":", false, .covering 1 1⟩] := by
    decide +kernel
  have last : Lexeme.last? "a: ".toList = some (.blank [' ']) := by decide +kernel
  have left : LeftOpen "a: 'b\\" "a: " '\x27' "b\\" :=
    { joined := by decide
      quotes := by decide
      read := ⟨_, read⟩
      behindWord := by
        rw [last]
        exact fun _ same => nomatch same
      behindComment := by
        rw [last]
        exact fun _ same => nomatch same
      unclosed := .literal 'b' (by decide) (by decide) .last }
  obtain ⟨opened, closed⟩ := tokenize_leftOpen "a: 'b\\"
  have closes := (closed "a: " '\x27' "b\\" left).2 _ read
  have appended : "a: 'b\\''" =
      "a: 'b\\" ++ String.ofList (Quoted.missing '\x27' "b\\".toList) := by
    decide +kernel
  refine ⟨left, opened.mpr ⟨_, _, _, left⟩, ?_⟩
  rw [appended, closes]
  decide +kernel

end Lifeline
