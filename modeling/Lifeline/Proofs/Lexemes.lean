import Mathlib.Data.List.TakeWhile
import Lifeline.Proofs.Quotation
import Lifeline.Token

/-! The lexemes that cut a text are those that are found in it. -/

namespace Lifeline

/-- A run that stops is taken as a whole. -/
theorem takeWhile_append_of_stop {A : Type} {holds : A → Bool} {run rest : List A}
    (all : ∀ item ∈ run, holds item = true) (stop : ∀ item ∈ rest.head?, holds item = false) :
    (run ++ rest).takeWhile holds = run ∧ (run ++ rest).dropWhile holds = rest := by
  rw [List.takeWhile_append_of_pos all, List.dropWhile_append_of_pos all]
  cases rest with
  | nil => simp
  | cons next more =>
      have stopped : holds next = false := stop next rfl
      simp [stopped]

namespace Lexeme

/-- This says whether a lexeme can go on with a character. -/
def continues : Lexeme → Char → Bool
  | .blank _, character => isBlank character
  | .comment _, character => character != '\n'
  | .word _, character => isWordCharacter character
  | .symbols _, character => isSymbol character
  | .quotation _ _, _ => false
  | .comma, _ => false
  | .colon, _ => false
  | .newline, _ => false

/-- A lexeme stops in front of a text that does not go on with it. -/
def Stops (lexeme : Lexeme) (rest : List Char) : Prop :=
  ∀ character ∈ rest.head?, lexeme.continues character = false

/-- A lexeme is formed by the rules of its kind. -/
def Formed : Lexeme → Prop
  | .blank run => run ≠ [] ∧ ∀ character ∈ run, isBlank character = true
  | .comment body => '\n' ∉ body
  | .quotation mark content =>
      Quoted.isMark mark = true ∧ ∃ value, Quoted.Spells mark content value
  | .word run =>
      run ≠ [] ∧ (∀ character ∈ run, isWordCharacter character = true) ∧
        ∀ character ∈ run.head?, character ≠ '#' ∧ Quoted.isMark character = false
  | .symbols run => run ≠ [] ∧ ∀ character ∈ run, isSymbol character = true
  | .comma => True
  | .colon => True
  | .newline => True

variable {lexeme : Lexeme} {source rest : List Char}

/-- A lexeme with a value that is not a quotation is written as its value. -/
theorem text_of_value? {value : List Char} (valued : lexeme.value? = some value)
    (bare : lexeme.isQuotation = false) : lexeme.text = value := by
  cases lexeme <;> first | contradiction | exact Option.some.inj valued

/-- Every lexeme has a text. -/
theorem Formed.text_ne_nil (formed : lexeme.Formed) : lexeme.text ≠ [] := by
  cases lexeme with
  | blank run => exact formed.1
  | word run => exact formed.1
  | symbols run => exact formed.1
  | _ => exact List.cons_ne_nil _ _

/-- Only a newline begins with the character that ends a line. -/
theorem Formed.eq_newline (formed : lexeme.Formed) (start : lexeme.text = '\n' :: rest) :
    lexeme = .newline := by
  have first (run : List Char) (same : run = '\n' :: rest) : '\n' ∈ run := by simp [same]
  cases lexeme with
  | newline => rfl
  | blank run => exact absurd (formed.2 _ (first run start)) (by decide)
  | word run => exact absurd (formed.2.1 _ (first run start)) (by decide)
  | symbols run => exact absurd (formed.2 _ (first run start)) (by decide)
  | quotation mark content =>
      obtain ⟨rfl, _⟩ := List.cons.inj start
      exact absurd formed.1 (by decide)
  | _ => simp [text] at start

/-- A newline goes on with nothing, and so every lexeme stops in front of it. -/
theorem stops_newline (lexeme : Lexeme) (rest : List Char) : lexeme.Stops ('\n' :: rest) := by
  intro character first
  obtain rfl := Option.some.inj first
  cases lexeme <;> rfl

/-- Only the first character of what follows a lexeme matters to it. -/
theorem Stops.congr {other : List Char} (stops : lexeme.Stops rest)
    (same : other.head? = rest.head?) : lexeme.Stops other := by
  rw [Stops, same]
  exact stops

/-- A lexeme stops where its run of characters does. -/
theorem stops_dropWhile {holds : Char → Bool} (goes : lexeme.continues = holds)
    (text : List Char) : lexeme.Stops (text.dropWhile holds) := by
  intro character first
  have stop := List.head?_dropWhile_not holds text
  rw [Option.mem_def.mp first] at stop
  rw [goes]
  exact stop

section Characters

variable {character : Char}

/-- No blank starts a comment or a quotation. -/
theorem plain_of_isBlank (blank : isBlank character = true) :
    character ≠ '#' ∧ ¬Quoted.isMark character = true := by
  simp only [isBlank, Bool.or_eq_true, beq_iff_eq] at blank
  rcases blank with (rfl | rfl) | rfl <;> decide

/-- No symbol starts a comment, a quotation or a run of blanks. -/
theorem plain_of_isSymbol (symbol : isSymbol character = true) :
    character ≠ '#' ∧ ¬Quoted.isMark character = true ∧ ¬isBlank character = true := by
  simp only [isSymbol, Bool.or_eq_true, beq_iff_eq] at symbol
  rcases symbol with ((rfl | rfl) | rfl) | rfl <;> decide

/-- A character of a word is of no other kind. -/
theorem plain_of_isWordCharacter (own : isWordCharacter character = true) :
    ¬isBlank character = true ∧ ¬isSymbol character = true ∧ character ≠ ',' ∧
      character ≠ ':' ∧ character ≠ '\n' := by
  simp only [isWordCharacter, Bool.not_eq_true', Bool.or_eq_false_iff, beq_eq_false_iff_ne] at own
  obtain ⟨⟨⟨⟨blank, symbol⟩, newline⟩, colon⟩, comma⟩ := own
  exact ⟨Bool.eq_false_iff.mp blank, Bool.eq_false_iff.mp symbol, comma, colon, newline⟩

end Characters

/-- The reader gives a lexeme that is formed and stops. -/
theorem formed_of_next? (found : next? source = some (lexeme, rest)) :
    lexeme.Formed ∧ lexeme.Stops rest := by
  have always {other : Lexeme} {behind : List Char} (goes : ∀ next, other.continues next = false) :
      other.Stops behind := fun next _ => goes next
  cases source with
  | nil => cases found
  | cons head tail =>
      have taken (holds : Char → Bool) (first : holds head = true) :
          ∀ character ∈ head :: tail.takeWhile holds, holds character = true := by
        intro character member
        rcases List.mem_cons.mp member with rfl | member
        · exact first
        · exact List.mem_takeWhile_imp member
      simp only [next?] at found
      split at found
      · cases found
        refine ⟨?_, stops_dropWhile rfl tail⟩
        intro newline
        simpa using List.mem_takeWhile_imp newline
      split at found
      · next quotes =>
          obtain ⟨⟨content, after⟩, closed, equal⟩ := Option.map_eq_some_iff.mp found
          cases equal
          exact ⟨⟨quotes, Quoted.spells_of_close? quotes closed⟩, always fun _ => rfl⟩
      split at found
      · next blank =>
          cases found
          exact ⟨⟨List.cons_ne_nil _ _, taken isBlank blank⟩, stops_dropWhile rfl tail⟩
      split at found
      · next symbol =>
          cases found
          exact ⟨⟨List.cons_ne_nil _ _, taken isSymbol symbol⟩, stops_dropWhile rfl tail⟩
      split at found
      · cases found
        exact ⟨trivial, always fun _ => rfl⟩
      split at found
      · cases found
        exact ⟨trivial, always fun _ => rfl⟩
      split at found
      · cases found
        exact ⟨trivial, always fun _ => rfl⟩
      · next comment mark blank symbol comma colon newline =>
          cases found
          have first : isWordCharacter head = true := by
            simp [isWordCharacter, blank, symbol, newline, colon, comma]
          refine ⟨⟨List.cons_ne_nil _ _, taken isWordCharacter first, ?_⟩, stops_dropWhile rfl tail⟩
          intro character start
          obtain rfl := Option.some.inj start
          exact ⟨comment, Bool.eq_false_iff.mpr mark⟩

/-- A lexeme that is formed and stops is the one that is read. -/
theorem next?_text_append (formed : lexeme.Formed) (stops : lexeme.Stops rest) :
    next? (lexeme.text ++ rest) = some (lexeme, rest) := by
  cases lexeme with
  | blank run =>
      obtain ⟨some, all⟩ := formed
      obtain ⟨head, tail, rfl⟩ := List.exists_cons_of_ne_nil some
      have blank := all head List.mem_cons_self
      obtain ⟨comment, mark⟩ := plain_of_isBlank blank
      obtain ⟨taken, dropped⟩ := takeWhile_append_of_stop
        (fun next member => all next (List.mem_cons_of_mem _ member)) stops
      rw [text, List.cons_append, next?, if_neg comment, if_neg mark, if_pos blank, taken, dropped]
  | comment body =>
      have line : ∀ character ∈ body, (character != '\n') = true := by
        intro character member
        have differs : character ≠ '\n' := fun same => formed (same ▸ member)
        simpa using differs
      obtain ⟨taken, dropped⟩ := takeWhile_append_of_stop line stops
      rw [text, List.cons_append, next?, if_pos rfl, taken, dropped]
  | quotation mark content =>
      obtain ⟨quotes, value, spells⟩ := formed
      have comment : mark ≠ '#' := by rintro rfl; contradiction
      rw [text, List.cons_append, List.append_assoc, List.singleton_append, next?, if_neg comment,
        if_pos quotes, Quoted.close?_of_spells quotes spells]
      rfl
  | word run =>
      obtain ⟨some, all, start⟩ := formed
      obtain ⟨head, tail, rfl⟩ := List.exists_cons_of_ne_nil some
      obtain ⟨comment, mark⟩ := start head rfl
      obtain ⟨blank, symbol, comma, colon, newline⟩ :=
        plain_of_isWordCharacter (all head List.mem_cons_self)
      obtain ⟨taken, dropped⟩ := takeWhile_append_of_stop
        (fun next member => all next (List.mem_cons_of_mem _ member)) stops
      rw [text, List.cons_append, next?, if_neg comment, if_neg (Bool.eq_false_iff.mp mark),
        if_neg blank, if_neg symbol, if_neg comma, if_neg colon, if_neg newline, taken, dropped]
  | symbols run =>
      obtain ⟨some, all⟩ := formed
      obtain ⟨head, tail, rfl⟩ := List.exists_cons_of_ne_nil some
      have symbol := all head List.mem_cons_self
      obtain ⟨comment, mark, blank⟩ := plain_of_isSymbol symbol
      obtain ⟨taken, dropped⟩ := takeWhile_append_of_stop
        (fun next member => all next (List.mem_cons_of_mem _ member)) stops
      rw [text, List.cons_append, next?, if_neg comment, if_neg mark, if_neg blank, if_pos symbol,
        taken, dropped]
  | comma => rfl
  | colon => rfl
  | newline => rfl

/-- A scan begins with the next lexeme. -/
theorem scan_of_next? (found : next? source = some (lexeme, rest)) :
    scan source = (lexeme :: (scan rest).1, (scan rest).2) := by
  rw [scan]
  split
  · next none =>
      rw [found] at none
      contradiction
  · next other behind some =>
      rw [found] at some
      obtain ⟨rfl, rfl⟩ := Prod.mk.inj (Option.some.inj some)
      rfl

theorem scan_newline (source : List Char) :
    scan ('\n' :: source) = (.newline :: (scan source).1, (scan source).2) :=
  scan_of_next? rfl

/-- The lexemes of a text stand one behind another, and each of them is as long as it can be. -/
def Cut : List Lexeme → List Char → Prop
  | [], _ => True
  | lexeme :: others, rest =>
      lexeme.Formed ∧ lexeme.Stops (others.flatMap text ++ rest) ∧ Cut others rest

variable {lexemes others : List Lexeme}

/-- A text is cut in two parts exactly if the first is cut in front of the second. -/
theorem cut_append :
    Cut (lexemes ++ others) rest ↔ Cut lexemes (others.flatMap text ++ rest) ∧ Cut others rest := by
  induction lexemes with
  | nil => simp [Cut]
  | cons lexeme more ih =>
      rw [List.cons_append, Cut, Cut, ih, List.flatMap_append, List.append_assoc, and_assoc,
        and_assoc]

/-- Only the first character of what follows a text matters to its lexemes. -/
theorem Cut.congr {other : List Char} (cut : Cut lexemes rest) (same : other.head? = rest.head?) :
    Cut lexemes other := by
  induction lexemes with
  | nil => trivial
  | cons lexeme more ih =>
      obtain ⟨formed, stops, behind⟩ := cut
      refine ⟨formed, stops.congr ?_, ih behind⟩
      rw [List.head?_append, List.head?_append, same]

/-- The last lexeme stops at what is left. -/
theorem Cut.stops_last (cut : Cut lexemes rest) (final : lexemes.getLast? = some lexeme) :
    lexeme.Stops rest := by
  obtain ⟨before, rfl⟩ := List.getLast?_eq_some_iff.mp final
  obtain ⟨_, _, stops, _⟩ := cut_append.mp cut
  exact stops

/-- Only the last lexeme of a text meets what follows the text. -/
theorem Cut.replace {other : List Char} (cut : Cut lexemes rest)
    (stops : ∀ lexeme ∈ lexemes.getLast?, lexeme.Stops other) : Cut lexemes other := by
  induction lexemes with
  | nil => trivial
  | cons lexeme more ih =>
      obtain ⟨formed, before, behind⟩ := cut
      cases more with
      | nil => exact ⟨formed, stops lexeme rfl, trivial⟩
      | cons next others =>
          obtain ⟨first, text, written⟩ := List.exists_cons_of_ne_nil behind.1.text_ne_nil
          rw [List.getLast?_cons_cons] at stops
          refine ⟨formed, ?_, ih behind stops⟩
          rw [List.flatMap_cons, written] at before ⊢
          exact before.congr rfl

/-- Every text ends in front of a newline as it ends by itself. -/
theorem Cut.newline (cut : Cut lexemes []) (rest : List Char) : Cut lexemes ('\n' :: rest) :=
  cut.replace fun lexeme _ => stops_newline lexeme rest

/-- The reader cuts a text into its lexemes. -/
theorem cut_scan (source : List Char) : Cut (scan source).1 (scan source).2 := by
  fun_induction scan source with
  | case1 source found => trivial
  | case2 source lexeme rest found lexemes unread scanned ih =>
      obtain ⟨formed, stops⟩ := formed_of_next? found
      have tiled := flatMap_text_append_scan rest
      rw [scanned] at ih tiled
      refine ⟨formed, ?_, ih⟩
      rw [tiled]
      exact stops

/-- The lexemes of a text that is read to its end are all of it. -/
theorem cut_of_ended (ended : (scan source).2 = []) :
    Cut (scan source).1 [] ∧ (scan source).1.flatMap text = source := by
  have cut := cut_scan source
  have tiled := flatMap_text_append_scan source
  rw [ended] at cut tiled
  rw [List.append_nil] at tiled
  exact ⟨cut, tiled⟩

/-- The lexemes that cut a text are read again, and the reader goes on behind them. -/
theorem scan_of_cut (cut : Cut lexemes rest) :
    scan (lexemes.flatMap text ++ rest) = (lexemes ++ (scan rest).1, (scan rest).2) := by
  induction lexemes with
  | nil => rfl
  | cons lexeme more ih =>
      obtain ⟨formed, stops, behind⟩ := cut
      rw [List.flatMap_cons, List.append_assoc, scan_of_next? (next?_text_append formed stops),
        ih behind]
      rfl

/-- At the end of a text nothing is left to read. -/
theorem scan_eq_of_cut (cut : Cut lexemes []) : scan (lexemes.flatMap text) = (lexemes, []) := by
  have scanned := scan_of_cut cut
  have ended : scan [] = ([], []) := by
    rw [scan]
    rfl
  rw [List.append_nil, ended, List.append_nil] at scanned
  exact scanned

end Lexeme

namespace Token

/-- Nothing is pending behind a lexeme with a value. -/
theorem pendingAfter_of_value? {lexeme : Lexeme} {value : List Char}
    (valued : lexeme.value? = some value) (pending : List Char) :
    pendingAfter pending lexeme = [] := by
  cases lexeme <;> first | rfl | cases valued

section Placing

variable {offset : Nat} {pending value : List Char} {lexeme : Lexeme} {others : List Lexeme}

/-- A lexeme without a value makes no token. -/
theorem ofLexemes_of_none (valued : lexeme.value? = none) :
    ofLexemes offset pending (lexeme :: others) =
      ofLexemes (offset + Text.byteCount lexeme.text) (pendingAfter pending lexeme) others := by
  rw [ofLexemes, valued]

/-- A lexeme with a value makes the first token. -/
theorem ofLexemes_of_some (valued : lexeme.value? = some value) :
    ofLexemes offset pending (lexeme :: others) =
      ⟨String.ofList pending, String.ofList value, lexeme.isQuotation,
        .covering offset (Text.byteCount lexeme.text)⟩ ::
        ofLexemes (offset + Text.byteCount lexeme.text) [] others := by
  rw [ofLexemes, valued, pendingAfter_of_value? valued]

end Placing

/-- Behind some lexemes, others are placed from the end of their text on. -/
theorem ofLexemes_append (offset : Nat) (pending : List Char) (first second : List Lexeme) :
    ofLexemes offset pending (first ++ second) = ofLexemes offset pending first ++
      ofLexemes (offset + Text.byteCount (first.flatMap Lexeme.text))
        (first.foldl pendingAfter pending) second := by
  induction first generalizing offset pending with
  | nil => rfl
  | cons lexeme rest ih =>
      simp only [List.cons_append, ofLexemes, ih, List.flatMap_cons, Text.byteCount_append,
        List.foldl_cons, Nat.add_assoc]
      cases lexeme.value? <;> rfl

end Token

/-- A source has tokens if it is read to its end, and then they are those of its lexemes. -/
theorem tokenize_eq_ok_iff {source : String} {tokens : List Token} :
    tokenize source = .ok tokens ↔ (Lexeme.scan source.toList).2 = [] ∧
      Token.ofLexemes 0 [] (Lexeme.scan source.toList).1 = tokens := by
  rw [tokenize]
  split
  · next scanned => simp [scanned]
  · next scanned => simp [scanned]

/-- A source is refused if its reader stops early, for the mark that it stops at. -/
theorem tokenize_eq_error_iff {source : String} {quotation : OpenQuotation} :
    tokenize source = .error quotation ↔ ∃ mark rest,
      (Lexeme.scan source.toList).2 = mark :: rest ∧
        quotation = ⟨mark, .covering
          (Text.byteCount ((Lexeme.scan source.toList).1.flatMap Lexeme.text))
          (Text.byteCount (mark :: rest))⟩ := by
  rw [tokenize]
  split
  · next scanned => simp [scanned]
  · next lexemes mark rest scanned =>
      rw [scanned, Except.error.injEq]
      constructor
      · rintro rfl
        exact ⟨mark, rest, rfl, rfl⟩
      · rintro ⟨other, more, same, rfl⟩
        obtain ⟨rfl, rfl⟩ := List.cons.inj same
        rfl

end Lifeline
