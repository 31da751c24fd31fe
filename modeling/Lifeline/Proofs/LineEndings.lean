import Lifeline.Proofs.Layout

/-! A carriage return in front of a newline has no part in what a source comes to. -/

namespace Lifeline

namespace Text

/-- The text gets a carriage return in front of each of its newlines. -/
def returned (text : List Char) : List Char :=
  text.flatMap fun character => if character = '\n' then ['\r', '\n'] else [character]

theorem returned_append (first second : List Char) :
    returned (first ++ second) = returned first ++ returned second := List.flatMap_append

/-- A text without a newline stays as it is. -/
theorem returned_of_newline_not_mem {text : List Char} (line : '\n' ∉ text) :
    returned text = text := by
  induction text with
  | nil => rfl
  | cons character rest ih =>
      rw [List.mem_cons, not_or] at line
      obtain ⟨other, behind⟩ := line
      rw [returned, List.flatMap_cons, if_neg (Ne.symm other), ← returned, ih behind,
        List.singleton_append]

/-- A text that does not begin with a newline still begins with the same character. -/
theorem head?_returned {text : List Char} (other : text.head? ≠ some '\n') :
    (returned text).head? = text.head? := by
  cases text with
  | nil => rfl
  | cons character rest =>
      have plain : character ≠ '\n' := fun same => other (congrArg some same)
      rw [returned, List.flatMap_cons, if_neg plain]
      rfl

end Text

namespace Lexeme

/-- Only the content of a quotation can hold newlines as they are. -/
def spansLines : Lexeme → Bool
  | .quotation _ content => content.contains '\n'
  | _ => false

/-- A lexeme that does not span lines has no newline in its text. -/
theorem Formed.newline_not_mem {lexeme : Lexeme} (formed : lexeme.Formed)
    (line : lexeme.spansLines = false) (other : lexeme ≠ .newline) : '\n' ∉ lexeme.text := by
  cases lexeme with
  | newline => exact absurd rfl other
  | blank run => exact fun member => absurd (formed.2 _ member) (by decide)
  | word run => exact fun member => absurd (formed.2.1 _ member) (by decide)
  | symbols run => exact fun member => absurd (formed.2 _ member) (by decide)
  | comment body =>
      intro member
      rcases List.mem_cons.mp member with sign | member
      · exact absurd sign (by decide)
      · exact formed member
  | quotation mark content =>
      have inside : '\n' ∉ content := by simpa [spansLines] using line
      have differs : '\n' ≠ mark := by
        rintro rfl
        exact absurd formed.1 (by decide)
      simp [text, differs, inside]
  | comma => decide
  | colon => decide

/-- The text of any other lexeme than a newline stays as it is. -/
theorem Formed.returned_text {lexeme : Lexeme} (formed : lexeme.Formed)
    (line : lexeme.spansLines = false) (other : lexeme ≠ .newline) :
    Text.returned lexeme.text = lexeme.text :=
  Text.returned_of_newline_not_mem (formed.newline_not_mem line other)

/-- A carriage return in front of a newline goes on with the blanks or with the comment that stand
there, and is a blank of its own behind any other lexeme. -/
def returned : List Lexeme → List Lexeme
  | [] => []
  | .blank run :: .newline :: rest => .blank (run ++ ['\r']) :: .newline :: returned rest
  | .comment body :: .newline :: rest => .comment (body ++ ['\r']) :: .newline :: returned rest
  | .newline :: rest => .blank ['\r'] :: .newline :: returned rest
  | lexeme :: rest => lexeme :: returned rest

/-- Carriage returns are put in front of the newlines among the lexemes. -/
theorem flatMap_text_returned {lexemes : List Lexeme} (cut : Cut lexemes [])
    (lines : ∀ lexeme ∈ lexemes, lexeme.spansLines = false) :
    (returned lexemes).flatMap text = Text.returned (lexemes.flatMap text) := by
  fun_induction returned lexemes with
  | case1 => rfl
  | case2 run rest ih =>
      obtain ⟨formed, _, _, _, behind⟩ := cut
      have same := formed.returned_text rfl (by simp)
      have others := ih behind fun lexeme member => lines lexeme (by simp [member])
      simp only [List.flatMap_cons, Text.returned_append, same, others]
      simp [text, Text.returned]
  | case3 body rest ih =>
      obtain ⟨formed, _, _, _, behind⟩ := cut
      have same := formed.returned_text rfl (by simp)
      have others := ih behind fun lexeme member => lines lexeme (by simp [member])
      simp only [List.flatMap_cons, Text.returned_append, same, others]
      simp [text, Text.returned]
  | case4 rest ih =>
      have others := ih cut.2.2 fun lexeme member => lines lexeme (by simp [member])
      simp only [List.flatMap_cons, Text.returned_append, others]
      rfl
  | case5 lexeme rest blank comment newline ih =>
      obtain ⟨formed, _, behind⟩ := cut
      have same := formed.returned_text (lines lexeme List.mem_cons_self) newline
      have others := ih behind fun other member => lines other (List.mem_cons_of_mem _ member)
      rw [List.flatMap_cons, List.flatMap_cons, Text.returned_append, same, others]

/-- Lexemes that start with a newline character start with a newline. -/
theorem exists_newline_cons {lexemes : List Lexeme} (cut : Cut lexemes [])
    (start : (lexemes.flatMap text).head? = some '\n') : ∃ rest, lexemes = .newline :: rest := by
  cases lexemes with
  | nil => contradiction
  | cons lexeme rest =>
      obtain ⟨head, tail, written⟩ := List.exists_cons_of_ne_nil cut.1.text_ne_nil
      rw [List.flatMap_cons, written] at start
      obtain rfl : head = '\n' := Option.some.inj start
      exact ⟨rest, by rw [cut.1.eq_newline written]⟩

/-- Other lexemes get at most a carriage return in front of them, and there a lexeme with a value
stops as well. -/
theorem Stops.returned {lexeme : Lexeme} {others : List Lexeme} (cut : Cut others [])
    (stops : lexeme.Stops (others.flatMap text))
    (valued : ∀ rest, others = .newline :: rest → ∃ value, lexeme.value? = some value) :
    lexeme.Stops (Text.returned (others.flatMap text)) := by
  by_cases start : (others.flatMap text).head? = some '\n'
  · obtain ⟨rest, rfl⟩ := exists_newline_cons cut start
    obtain ⟨value, valued⟩ := valued rest rfl
    change lexeme.Stops (['\r'] ++ '\n' :: Text.returned (rest.flatMap text))
    exact stops_blanks valued (List.cons_ne_nil _ _) (by simp [isBlank])
  · exact stops.congr (Text.head?_returned start)

/-- With carriage returns in their gaps, the lexemes still cut their text. -/
theorem cut_returned {lexemes : List Lexeme} (cut : Cut lexemes [])
    (lines : ∀ lexeme ∈ lexemes, lexeme.spansLines = false) : Cut (returned lexemes) [] := by
  fun_induction returned lexemes with
  | case1 => trivial
  | case2 run rest ih =>
      obtain ⟨formed, _, _, stops, behind⟩ := cut
      have others := ih behind fun lexeme member => lines lexeme (by simp [member])
      have longer : ∀ character ∈ run ++ ['\r'], isBlank character = true := by
        intro character member
        rcases List.mem_append.mp member with old | new
        · exact formed.2 character old
        · rw [List.mem_singleton.mp new]
          rfl
      exact ⟨⟨by simp, longer⟩, stops_newline _ _, trivial, fun _ _ => rfl, others⟩
  | case3 body rest ih =>
      obtain ⟨formed, _, _, stops, behind⟩ := cut
      have others := ih behind fun lexeme member => lines lexeme (by simp [member])
      refine ⟨?_, stops_newline _ _, trivial, fun _ _ => rfl, others⟩
      simpa [Formed] using formed
  | case4 rest ih =>
      have others := ih cut.2.2 fun lexeme member => lines lexeme (by simp [member])
      exact ⟨⟨by simp, by simp [isBlank]⟩, stops_newline _ _, trivial, fun _ _ => rfl, others⟩
  | case5 lexeme rest blank comment newline ih =>
      obtain ⟨formed, stops, behind⟩ := cut
      have inside : ∀ other ∈ rest, other.spansLines = false :=
        fun other member => lines other (List.mem_cons_of_mem _ member)
      refine ⟨formed, ?_, ih behind inside⟩
      rw [List.append_nil] at stops ⊢
      rw [flatMap_text_returned behind inside]
      refine stops.returned behind fun more ended => ?_
      cases lexeme with
      | blank run => exact absurd ended (blank run more rfl)
      | comment body => exact absurd ended (comment body more rfl)
      | _ => exact ⟨_, rfl⟩

end Lexeme

/-- The bare lines of tokens do not depend on spans. -/
theorem Line.map_bare_split (tokens : List Token) :
    (Line.split tokens).map Line.bare = (Line.split (Line.spanless tokens)).map Line.tight := by
  rw [split_spanless, List.map_map]
  rfl

namespace Token

/-- The separator in front of a newline is lost when lines are cut. -/
theorem splitOnP_ofLexemes_newline (offset : Nat) (pending : List Char) (rest : List Lexeme) :
    (Line.spanless (ofLexemes offset pending (.newline :: rest))).splitOnP isLineBreak =
      [] :: (Line.spanless (ofLexemes (offset + 1) [] rest)).splitOnP isLineBreak := by
  rw [ofLexemes_of_some rfl, Line.spanless_cons, List.splitOnP_cons_eq_if_modifyHead]
  rfl

/-- Carriage returns reach no token but the newlines, which are left out when lines are cut. -/
theorem splitOnP_ofLexemes_returned (offset other : Nat) (pending : List Char)
    (lexemes : List Lexeme) :
    (Line.spanless (ofLexemes offset pending (Lexeme.returned lexemes))).splitOnP isLineBreak =
      (Line.spanless (ofLexemes other pending lexemes)).splitOnP isLineBreak := by
  fun_induction Lexeme.returned lexemes generalizing offset other pending with
  | case1 => rfl
  | case2 run rest ih =>
      rw [ofLexemes_of_none rfl, splitOnP_ofLexemes_newline, ofLexemes_of_none rfl,
        splitOnP_ofLexemes_newline]
      exact congrArg (List.cons []) (ih _ _ _)
  | case3 body rest ih =>
      rw [ofLexemes_of_none rfl, splitOnP_ofLexemes_newline, ofLexemes_of_none rfl,
        splitOnP_ofLexemes_newline]
      exact congrArg (List.cons []) (ih _ _ _)
  | case4 rest ih =>
      rw [ofLexemes_of_none rfl, splitOnP_ofLexemes_newline, splitOnP_ofLexemes_newline]
      exact congrArg (List.cons []) (ih _ _ _)
  | case5 lexeme rest blank comment newline ih =>
      cases valued : lexeme.value? with
      | none =>
          rw [ofLexemes_of_none valued, ofLexemes_of_none valued]
          exact ih _ _ _
      | some value =>
          rw [ofLexemes_of_some valued, ofLexemes_of_some valued, Line.spanless_cons,
            Line.spanless_cons, List.splitOnP_cons_eq_if_modifyHead,
            List.splitOnP_cons_eq_if_modifyHead, ih _ (other + Text.byteCount lexeme.text)]
          rfl

end Token

/-- Where a source can be cut into tokens and none of its quotations goes on over a newline, it
comes to the same with a carriage return in front of each newline. -/
theorem outcome_returned (header : Header) {source : String}
    (read : ∃ tokens, tokenize source = .ok tokens)
    (lines : ∀ lexeme ∈ (Lexeme.scan source.toList).1, lexeme.spansLines = false) :
    outcome header (String.ofList (Text.returned source.toList)) = outcome header source := by
  obtain ⟨tokens, read⟩ := read
  obtain ⟨ended, _⟩ := tokenize_eq_ok_iff.mp read
  have tiled := Lexeme.flatMap_text_append_scan source.toList
  have cut := Lexeme.cut_scan source.toList
  rw [ended] at tiled cut
  rw [List.append_nil] at tiled
  have scanned := Lexeme.scan_eq_of_cut (Lexeme.cut_returned cut lines)
  rw [Lexeme.flatMap_text_returned cut lines, tiled] at scanned
  refine outcome_congr ?_ ?_
  · rw [String.toList_ofList, scanned, ended]
  · rw [String.toList_ofList, scanned]
    rw [Line.map_bare_split, Line.map_bare_split, Line.split,
      Token.splitOnP_ofLexemes_returned 0 0, ← Line.split]

/-- The lines end in a quotation, a comment, nothing at all and a message, and the last one closes
no block. -/
theorem outcome_returned_stray :
    outcome {} "title 'a\\nb'\r\n# c\r\n\r\nA->B:x\r\nend\r\n" =
      outcome {} "title 'a\\nb'\n# c\n\nA->B:x\nend\n" := by
  have written : String.ofList (Text.returned "title 'a\\nb'\n# c\n\nA->B:x\nend\n".toList) =
      "title 'a\\nb'\r\n# c\r\n\r\nA->B:x\r\nend\r\n" := by
    decide +kernel
  have read : (Lexeme.scan "title 'a\\nb'\n# c\n\nA->B:x\nend\n".toList).2 = [] := by
    decide +kernel
  rw [← written]
  exact outcome_returned {} ⟨_, tokenize_eq_ok_iff.mpr ⟨read, rfl⟩⟩ (by decide +kernel)

end Lifeline
