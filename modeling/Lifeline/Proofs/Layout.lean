import Lifeline.Proofs.Lexemes
import Lifeline.Proofs.Spans

/-! Comments and blanks at the ends of lines have no part in what a source comes to. -/

namespace Lifeline

namespace Line

theorem spanless_tight (line : Line) : spanless (tight line) = tight (spanless line) := by
  cases line <;> rfl

/-- Spans are taken away once and for all. -/
theorem spanless_spanless (line : Line) : spanless (spanless line) = spanless line := by
  rw [spanless, spanless, List.map_map]
  rfl

/-- Tokens are cut into lines without a look at their spans. -/
theorem split_spanless (tokens : List Token) :
    split (spanless tokens) = (split tokens).map spanless := by
  rw [split, spanless, splitOnP_map, List.filter_map, split]
  congr 2
  funext line
  cases line <;> rfl

/-- The blanks in front of the tokens do not matter once those in front of each line are left out. -/
theorem map_tight_split_tight (tokens : List Token) :
    (split (tight tokens)).map tight = (split tokens).map tight := by
  cases tokens with
  | nil => rfl
  | cons first rest =>
      have same : first.tight.isLineBreak = first.isLineBreak := rfl
      rw [tight, split, List.splitOnP_cons_eq_if_modifyHead, same, split,
        List.splitOnP_cons_eq_if_modifyHead]
      split
      · rfl
      · cases rest.splitOnP Token.isLineBreak <;> rfl

/-- Tokens that are alike when bare are cut into lines that are alike when bare. -/
theorem map_bare_split_congr {tokens others : List Token} (same : bare tokens = bare others) :
    (split tokens).map bare = (split others).map bare := by
  have through (tokens : List Token) :
      (split tokens).map bare = ((split (bare tokens)).map tight).map spanless := by
    rw [bare, map_tight_split_tight, split_spanless, List.map_map, List.map_map]
    congr 1
    funext line
    rw [bare, Function.comp_apply, Function.comp_apply, spanless_tight, spanless_spanless]
  rw [through tokens, through others, same]

end Line

namespace Token

/-- The offset of lexemes is seen in the spans of their tokens only. -/
theorem spanless_ofLexemes (offset other : Nat) (pending : List Char) (lexemes : List Lexeme) :
    Line.spanless (ofLexemes offset pending lexemes) =
      Line.spanless (ofLexemes other pending lexemes) := by
  induction lexemes generalizing offset other pending with
  | nil => rfl
  | cons lexeme rest ih =>
      cases valued : lexeme.value? with
      | none =>
          rw [ofLexemes_of_none valued, ofLexemes_of_none valued]
          exact ih _ _ _
      | some value =>
          rw [ofLexemes_of_some valued, ofLexemes_of_some valued, Line.spanless_cons,
            Line.spanless_cons, ih _ (other + Text.byteCount lexeme.text)]
          rfl

/-- Blanks that are pending can only come in front of the first token. -/
theorem bare_ofLexemes (offset other : Nat) (pending gap : List Char) (lexemes : List Lexeme) :
    Line.bare (ofLexemes offset pending lexemes) = Line.bare (ofLexemes other gap lexemes) := by
  induction lexemes generalizing offset other pending gap with
  | nil => rfl
  | cons lexeme rest ih =>
      cases valued : lexeme.value? with
      | none =>
          rw [ofLexemes_of_none valued, ofLexemes_of_none valued]
          exact ih _ _ _ _
      | some value =>
          rw [ofLexemes_of_some valued, ofLexemes_of_some valued, Line.bare, Line.spanless_cons,
            Line.bare, Line.spanless_cons,
            spanless_ofLexemes _ (other + Text.byteCount lexeme.text)]
          rfl

end Token

/-- Sources with the same bare lines, and the same quotation left open if there is one, come to the
same. -/
theorem outcome_congr {header : Header} {source other : String}
    (unread : (Lexeme.scan source.toList).2 = (Lexeme.scan other.toList).2)
    (lines : (Line.split (Token.ofLexemes 0 [] (Lexeme.scan source.toList).1)).map Line.bare =
      (Line.split (Token.ofLexemes 0 [] (Lexeme.scan other.toList).1)).map Line.bare) :
    outcome header source = outcome header other := by
  have read (text : String) (ended : (Lexeme.scan text.toList).2 = []) :
      tokenize text = .ok (Token.ofLexemes 0 [] (Lexeme.scan text.toList).1) := by
    rw [tokenize]
    split
    · next scanned => rw [scanned]
    · next scanned =>
        rw [scanned] at ended
        contradiction
  have refused (text : String) {mark : Char} {rest : List Char}
      (left : (Lexeme.scan text.toList).2 = mark :: rest) :
      ∃ span, tokenize text = .error ⟨mark, span⟩ := by
    rw [tokenize]
    split
    · next scanned =>
        rw [scanned] at left
        contradiction
    · next scanned =>
        rw [scanned] at left
        obtain ⟨rfl, rfl⟩ := List.cons.inj left
        exact ⟨_, rfl⟩
  cases left : (Lexeme.scan source.toList).2 with
  | nil =>
      rw [outcome_of_tokenize (read source left), outcome_of_tokenize (read other (unread ▸ left)),
        ← outcomeOf_bare, lines, outcomeOf_bare]
  | cons mark rest =>
      obtain ⟨span, cut⟩ := refused source left
      obtain ⟨place, otherCut⟩ := refused other (unread ▸ left)
      rw [outcome_of_quotation cut, outcome_of_quotation otherCut]
      rfl

namespace Lexeme

/-- The blanks that a text starts with can only come in front of its first token. -/
theorem scan_dropWhile_isBlank (source : List Char) :
    (scan source).2 = (scan (source.dropWhile isBlank)).2 ∧ ∀ offset other,
      Line.bare (Token.ofLexemes offset [] (scan source).1) =
        Line.bare (Token.ofLexemes other [] (scan (source.dropWhile isBlank)).1) := by
  cases blanks : source.takeWhile isBlank with
  | nil =>
      have same : source.dropWhile isBlank = source := by
        have parts := List.takeWhile_append_dropWhile (p := isBlank) (l := source)
        rw [blanks] at parts
        exact parts
      rw [same]
      exact ⟨rfl, fun offset other => Token.bare_ofLexemes offset other [] [] _⟩
  | cons first more =>
      have formed : (Lexeme.blank (first :: more)).Formed := by
        refine ⟨List.cons_ne_nil _ _, fun character member => ?_⟩
        rw [← blanks] at member
        exact List.mem_takeWhile_imp member
      have stops : (Lexeme.blank (first :: more)).Stops (source.dropWhile isBlank) :=
        stops_dropWhile rfl source
      have found := next?_text_append formed stops
      rw [text, ← blanks, List.takeWhile_append_dropWhile] at found
      rw [scan_of_next? found]
      refine ⟨rfl, fun offset other => ?_⟩
      rw [Token.ofLexemes, value?]
      exact Token.bare_ofLexemes _ other _ [] _

/-- Indentation can only come in front of the first token of a text. -/
theorem scan_indented {indentation : List Char}
    (blank : ∀ character ∈ indentation, isBlank character = true) (source : List Char) :
    (scan (indentation ++ source)).2 = (scan source).2 ∧ ∀ offset other,
      Line.bare (Token.ofLexemes offset [] (scan (indentation ++ source)).1) =
        Line.bare (Token.ofLexemes other [] (scan source).1) := by
  have dropped : (indentation ++ source).dropWhile isBlank = source.dropWhile isBlank :=
    List.dropWhile_append_of_pos blank
  have indented := scan_dropWhile_isBlank (indentation ++ source)
  have plain := scan_dropWhile_isBlank source
  rw [dropped] at indented
  exact ⟨indented.1.trans plain.1.symm, fun offset other =>
    (indented.2 offset 0).trans (plain.2 other 0).symm⟩

section Commented

variable {blanks comment : List Char}

/-- A comment can be made longer up to the end of its line. -/
theorem formed_comment_append {body : List Char} (first : '\n' ∉ body)
    (blank : ∀ character ∈ blanks, isBlank character = true) (line : '\n' ∉ comment) :
    (Lexeme.comment (body ++ (blanks ++ '#' :: comment))).Formed := by
  intro member
  rcases List.mem_append.mp member with inside | behind
  · exact first inside
  rcases List.mem_append.mp behind with gap | remark
  · exact absurd (blank '\n' gap) (by decide)
  rcases List.mem_cons.mp remark with sign | member
  · exact absurd sign (by decide)
  · exact line member

/-- A lexeme with a value does not go on with a blank. -/
theorem stops_blanks {lexeme : Lexeme} {value rest : List Char} (valued : lexeme.value? = some value)
    (some : blanks ≠ []) (blank : ∀ character ∈ blanks, isBlank character = true) :
    lexeme.Stops (blanks ++ rest) := by
  intro character first
  obtain ⟨head, tail, rfl⟩ := List.exists_cons_of_ne_nil some
  obtain rfl := Option.some.inj first
  have space : isBlank head = true := blank head List.mem_cons_self
  cases lexeme with
  | blank run => cases valued
  | comment body => cases valued
  | word run => simp [continues, isWordCharacter, space]
  | symbols run =>
      simp only [isBlank, Bool.or_eq_true, beq_iff_eq] at space
      rcases space with (rfl | rfl) | rfl <;> rfl
  | _ => rfl

/-- Blanks and a comment behind a lexeme give no further token. -/
theorem exists_commented_of_formed {lexeme : Lexeme} (formed : lexeme.Formed) (some : blanks ≠ [])
    (blank : ∀ character ∈ blanks, isBlank character = true) (line : '\n' ∉ comment) :
    ∃ longer, longer.flatMap text = lexeme.text ++ (blanks ++ '#' :: comment) ∧
      (∀ rest, Cut longer ('\n' :: rest)) ∧
      ∀ offset pending,
        Token.ofLexemes offset pending longer = Token.ofLexemes offset pending [lexeme] := by
  have blankStops (run rest : List Char) : (Lexeme.blank run).Stops ('#' :: rest) := by
    intro character first
    obtain rfl := Option.some.inj first
    rfl
  have commentCut (rest : List Char) : Cut [.comment comment] ('\n' :: rest) :=
    ⟨line, stops_newline _ rest, trivial⟩
  cases valued : lexeme.value? with
  | some value =>
      refine ⟨[lexeme, .blank blanks, .comment comment], by simp [text], fun rest => ?_, ?_⟩
      · refine ⟨formed, ?_, ⟨some, blank⟩, blankStops _ _, commentCut rest⟩
        rw [List.flatMap_cons, text, List.append_assoc]
        exact stops_blanks valued some blank
      · intro offset pending
        simp [Token.ofLexemes, value?]
  | none =>
      cases lexeme with
      | blank run =>
          refine ⟨[.blank (run ++ blanks), .comment comment], by simp [text], fun rest => ?_, ?_⟩
          · refine ⟨⟨by simp [some], fun character member => ?_⟩, blankStops _ _, commentCut rest⟩
            exact (List.mem_append.mp member).elim (formed.2 character) (blank character)
          · intro offset pending
            rfl
      | comment body =>
          refine ⟨[.comment (body ++ (blanks ++ '#' :: comment))], by simp [text],
            fun rest => ⟨formed_comment_append formed blank line, stops_newline _ rest, trivial⟩, ?_⟩
          intro offset pending
          rfl
      | _ => cases valued

/-- Blanks and a comment behind a text give no further token. -/
theorem exists_commented {lexemes : List Lexeme} (cut : Cut lexemes []) (some : blanks ≠ [])
    (blank : ∀ character ∈ blanks, isBlank character = true) (line : '\n' ∉ comment) :
    ∃ longer, longer.flatMap text = lexemes.flatMap text ++ (blanks ++ '#' :: comment) ∧
      (∀ rest, Cut longer ('\n' :: rest)) ∧
      ∀ offset pending,
        Token.ofLexemes offset pending longer = Token.ofLexemes offset pending lexemes := by
  rcases List.eq_nil_or_concat lexemes with rfl | ⟨before, last, rfl⟩
  · -- An empty text is a comment without anything in it, as far as tokens are concerned.
    refine ⟨[.blank blanks, .comment comment], by simp [text], fun rest => ?_, fun _ _ => rfl⟩
    refine ⟨⟨some, blank⟩, ?_, line, stops_newline _ rest, trivial⟩
    intro character first
    obtain rfl := Option.some.inj first
    rfl
  · rw [List.concat_eq_append] at cut ⊢
    obtain ⟨front, formed, _, _⟩ := cut_append.mp cut
    obtain ⟨longer, texts, cutLonger, tokens⟩ :=
      exists_commented_of_formed formed some blank line
    refine ⟨before ++ longer, by simp [texts], fun rest => ?_, fun offset pending => ?_⟩
    · refine cut_append.mpr ⟨front.congr ?_, cutLonger rest⟩
      obtain ⟨head, tail, written⟩ := List.exists_cons_of_ne_nil formed.text_ne_nil
      simp [texts, written]
    · rw [Token.ofLexemes_append, Token.ofLexemes_append, tokens]

end Commented

end Lexeme

/-- Blanks at the end of a line, a comment behind them and blanks in front of the next line do not
change what a source comes to. -/
theorem outcome_layout (header : Header) {first blanks comment indentation second : String}
    (read : ∃ tokens, tokenize first = .ok tokens) (some : blanks ≠ "")
    (blank : ∀ character ∈ blanks.toList, Lexeme.isBlank character = true)
    (line : '\n' ∉ comment.toList)
    (indented : ∀ character ∈ indentation.toList, Lexeme.isBlank character = true) :
    outcome header (first ++ blanks ++ "#" ++ comment ++ "\n" ++ indentation ++ second) =
      outcome header (first ++ "\n" ++ second) := by
  have ended : (Lexeme.scan first.toList).2 = [] := by
    obtain ⟨tokens, cut⟩ := read
    rw [tokenize] at cut
    split at cut
    · next scanned => rw [scanned]
    · cases cut
  have tiled := Lexeme.flatMap_text_append_scan first.toList
  have cut := Lexeme.cut_scan first.toList
  rw [ended] at tiled cut
  rw [List.append_nil] at tiled
  generalize (Lexeme.scan first.toList).1 = lexemes at tiled cut
  obtain ⟨longer, texts, cutLonger, tokens⟩ :=
    Lexeme.exists_commented cut (by simpa using some) blank line
  have scanShort : Lexeme.scan (first ++ "\n" ++ second).toList =
      (lexemes ++ .newline :: (Lexeme.scan second.toList).1, (Lexeme.scan second.toList).2) := by
    have scanned := Lexeme.scan_of_cut (cut.newline second.toList)
    rw [Lexeme.scan_newline, tiled] at scanned
    simpa using scanned
  have scanLong : Lexeme.scan
      (first ++ blanks ++ "#" ++ comment ++ "\n" ++ indentation ++ second).toList =
      (longer ++ .newline :: (Lexeme.scan (indentation.toList ++ second.toList)).1,
        (Lexeme.scan (indentation.toList ++ second.toList)).2) := by
    have scanned := Lexeme.scan_of_cut (cutLonger (indentation.toList ++ second.toList))
    rw [Lexeme.scan_newline, texts, tiled] at scanned
    simpa using scanned
  obtain ⟨unread, bare⟩ := Lexeme.scan_indented indented second.toList
  refine outcome_congr (by rw [scanLong, scanShort, unread]) ?_
  rw [scanLong, scanShort, Token.ofLexemes_append, Token.ofLexemes_append, tokens]
  simp only [Token.ofLexemes, Lexeme.value?]
  rw [Line.split_append_cons _ _ rfl, Line.split_append_cons _ _ rfl, List.map_append,
    List.map_append]
  congr 1
  exact Line.map_bare_split_congr (bare _ _)

/-- A quotation mark and a keyword in a remark have no part in it. -/
theorem outcome_layout_remark :
    outcome {} ("a:" ++ " \t" ++ "#" ++ " \x22 end" ++ "\n" ++ "\t" ++ "b:") =
      outcome {} ("a:" ++ "\n" ++ "b:") :=
  outcome_layout {}
    ⟨[{ separator := "", value := "a", span := .covering 0 1 },
      { separator := "", value := ":", span := .covering 1 1 }], by decide +kernel⟩
    (by decide) (by simp [Lexeme.isBlank]) (by decide) (by simp [Lexeme.isBlank])

end Lifeline
