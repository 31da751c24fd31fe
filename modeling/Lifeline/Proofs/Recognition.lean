import Mathlib.Data.List.TakeDrop
import Lifeline.Proofs.Lexemes
import Lifeline.Statement.Reading

/-! A line that no keyword claims is a message, a marker, or refused. -/

namespace Lifeline

section Cuts

variable {word : String} {tokens before after : List Token} {token : Token} {arrow : Arrow}

/-- A line is cut at the first token with the word. -/
theorem cutAt?_append_cons (absent : ∀ earlier ∈ before, earlier.is word = false)
    (found : token.is word = true) :
    Line.cutAt? word (before ++ token :: after) = some (before, after) := by
  let holds (token : Token) : Bool := !token.is word
  have run : ∀ earlier ∈ before, holds earlier = true := by simpa [holds] using absent
  have stop : ∀ next ∈ (token :: after).head?, holds next = false := by simpa [holds] using found
  obtain ⟨taken, dropped⟩ := takeWhile_append_of_stop run stop
  rw [Line.cutAt?, List.span_eq_takeWhile_dropWhile, taken, dropped]

/-- A list cannot be cut exactly if no token has the given value. -/
theorem cutAt?_eq_none_iff :
    Line.cutAt? word tokens = none ↔ ∀ token ∈ tokens, token.is word = false := by
  rw [Line.cutAt?, List.span_eq_takeWhile_dropWhile]
  cases behind : tokens.dropWhile fun token => !token.is word with
  | nil => simpa using List.dropWhile_eq_nil_iff.mp behind
  | cons token rest =>
      have stop := List.head?_dropWhile_not (fun token : Token => !token.is word) tokens
      rw [behind] at stop
      have found : token.is word = true := by simpa using stop
      have member : token ∈ tokens :=
        (List.dropWhile_suffix _).subset (behind ▸ List.mem_cons_self)
      simp only [reduceCtorEq, false_iff]
      exact fun absent => absurd (absent token member) (by simp [found])

/-- A list is cut at the first token with the given value. -/
theorem cutAt?_eq_some_iff : Line.cutAt? word tokens = some (before, after) ↔
    ∃ token, tokens = before ++ token :: after ∧ token.is word = true ∧
      ∀ earlier ∈ before, earlier.is word = false := by
  constructor
  · intro cut
    have parts := List.takeWhile_append_dropWhile (p := fun token : Token => !token.is word)
      (l := tokens)
    have stop := List.head?_dropWhile_not (fun token : Token => !token.is word) tokens
    rw [Line.cutAt?, List.span_eq_takeWhile_dropWhile] at cut
    cases behind : tokens.dropWhile fun token => !token.is word with
    | nil =>
        rw [behind] at cut
        contradiction
    | cons token rest =>
        rw [behind] at cut parts stop
        obtain ⟨rfl, rfl⟩ := Prod.mk.inj (Option.some.inj cut)
        refine ⟨token, parts.symm, by simpa using stop, fun earlier member => ?_⟩
        simpa using List.mem_takeWhile_imp member
  · rintro ⟨token, rfl, found, absent⟩
    exact cutAt?_append_cons absent found

/-- A line is cut at its first operator. -/
theorem cutArrow?_append_cons
    (absent : ∀ earlier ∈ before, Arrow.ofOperator? earlier.value = none)
    (found : Arrow.ofOperator? token.value = some arrow) :
    Line.cutArrow? (before ++ token :: after) = some (before, arrow, after) := by
  induction before with
  | nil => rw [List.nil_append, Line.cutArrow?, found]
  | cons first rest ih =>
      obtain ⟨plain, others⟩ := List.forall_mem_cons.mp absent
      rw [List.cons_append, Line.cutArrow?, plain, ih others]
      rfl

/-- A list is cut at its first operator. -/
theorem cutArrow?_eq_some_iff : Line.cutArrow? tokens = some (before, arrow, after) ↔
    ∃ sign, tokens = before ++ sign :: after ∧ Arrow.ofOperator? sign.value = some arrow ∧
      ∀ earlier ∈ before, Arrow.ofOperator? earlier.value = none := by
  constructor
  · intro cut
    induction tokens generalizing before with
    | nil => contradiction
    | cons first rest ih =>
        rw [Line.cutArrow?] at cut
        split at cut
        · next operator =>
            obtain ⟨rfl, same⟩ := Prod.mk.inj (Option.some.inj cut)
            obtain ⟨rfl, rfl⟩ := Prod.mk.inj same
            exact ⟨first, rfl, operator, by simp⟩
        · next plain =>
            obtain ⟨⟨earlier, sign, behind⟩, found, same⟩ := Option.map_eq_some_iff.mp cut
            cases same
            obtain ⟨token, rfl, operator, absent⟩ := ih found
            exact ⟨token, rfl, operator, List.forall_mem_cons.mpr ⟨plain, absent⟩⟩
  · rintro ⟨sign, rfl, found, absent⟩
    exact cutArrow?_append_cons absent found

end Cuts

/-- A token is compared by its value, quoted or not. -/
theorem Token.is_iff {token : Token} {text : String} :
    token.is text = true ↔ token.value = text := by
  simp [is]

/-- A line with a keyword starts with this word. -/
def Keyword.word : Keyword → String
  | .title => "title"
  | .terminators => "terminators"
  | .alternative => "if"
  | .otherwise => "else"
  | .otherwiseIf => "elif"
  | .loop => "repeat"
  | .define => "define"
  | .enter => "begin"
  | .leave => "end"
  | .simultaneously => "simultaneously"
  | .note style => style.keyword

/-- A keyword is known by its word. -/
theorem Keyword.ofWord?_eq_some_iff {word : String} {keyword : Keyword} :
    ofWord? word = some keyword ↔ word = keyword.word := by
  constructor
  · intro found
    unfold ofWord? at found
    split at found <;> cases found <;> rfl
  · rintro rfl
    cases keyword with
    | note style => cases style <;> rfl
    | _ => rfl

/-- A colon is no position of a note. -/
theorem NoteForm.ofWord?_colon (style : NoteStyle) : ofWord? style ":" = none := by
  cases style <;> rfl

namespace Line

/-- An end of a message has some tokens and no colon among them, and text behind its flag. -/
def IsEnd (tokens : List Token) : Prop :=
  tokens ≠ [] ∧ (∀ token ∈ tokens, token.is ":" = false) ∧
    ∀ first rest, tokens = first :: rest → (first.is "+" = true ∨ first.is "-" = true) →
      text rest ≠ ""

/-- A flag at the front of an end is not a part of the name. -/
def mentionOf : List Token → Mention
  | [] => ⟨"", none⟩
  | first :: rest =>
      if first.is "+" then ⟨text rest, some .arrive⟩
      else if first.is "-" then ⟨text rest, some .depart⟩
      else ⟨text (first :: rest), none⟩

/-- A message has an operator between two ends, and nothing or a colon behind them. The operator is
the first one of the line. -/
structure IsMessage (line left : List Token) (sign : Token) (arrow : Arrow)
    (right rest : List Token) : Prop where
  joined : line = left ++ sign :: (right ++ rest)
  operator : Arrow.ofOperator? sign.value = some arrow
  earliest : ∀ token ∈ left, Arrow.ofOperator? token.value = none
  sender : IsEnd left
  receiver : IsEnd right
  label : ∀ token ∈ rest.head?, token.is ":" = true

/-- A marker has a colon behind at least one other token. -/
def IsMarker (line : Line) : Prop :=
  2 ≤ line.length ∧ ∀ last ∈ line.getLast?, last.is ":" = true

/-- The tokens behind a keyword do not fit its form: a list has no names, a jump has no colon at its
end or another word in front of its target, and a note has no colon or no position. -/
def Misfits : Keyword → List Token → Prop
  | .define, arguments => arguments = []
  | .enter, arguments => arguments = []
  | .simultaneously, arguments =>
      (∀ last ∈ arguments.getLast?, last.is ":" = false) ∨
        1 < arguments.length ∧ ∀ word ∈ arguments.head?, word.is "with" = false
  | .note style, arguments =>
      (∀ token ∈ arguments, token.is ":" = false) ∨
        ∀ word ∈ arguments.head?, NoteForm.ofWord? style word.value = none
  | _, _ => False

/-- No keyword claims a line if its first token is none or the others do not fit its form. -/
def Unclaimed : Line → Prop
  | [] => False
  | first :: arguments => ∀ keyword ∈ Keyword.ofWord? first.value, Misfits keyword arguments

section Free

variable {line tokens target rest : List Token} {mention : Mention} {statement : Statement}

theorem ofSign?_eq_none {word : String} (arrives : word ≠ "+") (departs : word ≠ "-") :
    Flag.ofSign? word = none := by
  unfold Flag.ofSign?
  split
  · contradiction
  · contradiction
  · rfl

/-- Tokens without a colon are read as a mention exactly if they are an end. -/
theorem mention?_eq_some_iff (clear : ∀ token ∈ tokens, token.is ":" = false) :
    mention? tokens = some mention ↔ IsEnd tokens ∧ mention = mentionOf tokens := by
  cases tokens with
  | nil => simp [mention?, IsEnd]
  | cons first rest =>
      have ends : IsEnd (first :: rest) ↔
          (first.is "+" = true ∨ first.is "-" = true → text rest ≠ "") := by
        constructor
        · exact fun ends => ends.2.2 first rest rfl
        · rintro named
          refine ⟨List.cons_ne_nil _ _, clear, ?_⟩
          rintro _ _ ⟨rfl, rfl⟩
          exact named
      rw [ends, mention?, mentionOf]
      by_cases arrives : first.value = "+"
      · by_cases named : text rest = "" <;>
          simp [Token.is, arrives, Flag.ofSign?, named, @eq_comm _ mention]
      by_cases departs : first.value = "-"
      · by_cases named : text rest = "" <;>
          simp [Token.is, departs, Flag.ofSign?, named, @eq_comm _ mention]
      · simp [Token.is, arrives, departs, ofSign?_eq_none arrives departs, @eq_comm _ mention]

/-- The label begins behind the first colon. -/
theorem cutLabel_append (clear : ∀ token ∈ target, token.is ":" = false)
    (starts : ∀ token ∈ rest.head?, token.is ":" = true) :
    cutLabel (target ++ rest) = (target, text rest.tail) := by
  cases rest with
  | nil =>
      rw [List.append_nil, cutLabel, cutAt?_eq_none_iff.mpr clear]
      rfl
  | cons colon more =>
      rw [cutLabel, cutAt?_append_cons clear (starts colon rfl)]
      rfl

/-- Every list has a part in front of its first colon, which may be the whole list. -/
theorem exists_clear_append (tokens : List Token) :
    ∃ target rest, tokens = target ++ rest ∧ (∀ token ∈ target, token.is ":" = false) ∧
      ∀ token ∈ rest.head?, token.is ":" = true := by
  cases cut : cutAt? ":" tokens with
  | none => exact ⟨tokens, [], by simp, cutAt?_eq_none_iff.mp cut, by simp⟩
  | some parts =>
      obtain ⟨colon, rfl, found, absent⟩ := cutAt?_eq_some_iff.mp cut
      exact ⟨parts.1, colon :: parts.2, rfl, absent, by simpa using found⟩

/-- A line is read as a message exactly if it has the parts of one. -/
theorem message?_eq_some_iff : message? line = some statement ↔
    ∃ left sign arrow right rest, IsMessage line left sign arrow right rest ∧
      statement = .message (mentionOf left) (mentionOf right) arrow (text rest.tail) := by
  constructor
  · intro read
    rw [message?] at read
    cases cut : cutArrow? line with
    | none =>
        rw [cut] at read
        contradiction
    | some parts =>
        obtain ⟨left, arrow, behind⟩ := parts
        obtain ⟨sign, rfl, operator, earliest⟩ := cutArrow?_eq_some_iff.mp cut
        obtain ⟨right, rest, rfl, clear, starts⟩ := exists_clear_append behind
        rw [cut] at read
        simp only [cutLabel_append clear starts] at read
        split at read
        · contradiction
        · next clearLeft =>
            have clearLeft : ∀ token ∈ left, token.is ":" = false := by
              simpa using clearLeft
            split at read
            · next sender receiver sent received =>
                obtain rfl := Option.some.inj read
                obtain ⟨endLeft, rfl⟩ := (mention?_eq_some_iff clearLeft).mp sent
                obtain ⟨endRight, rfl⟩ := (mention?_eq_some_iff clear).mp received
                exact ⟨left, sign, arrow, right, rest,
                  ⟨rfl, operator, earliest, endLeft, endRight, starts⟩, rfl⟩
            · contradiction
  · rintro ⟨left, sign, arrow, right, rest, shape, rfl⟩
    have clearLeft := shape.sender.2.1
    have clearRight := shape.receiver.2.1
    have clear : left.any (fun token => token.is ":") = false := by
      simpa using clearLeft
    rw [message?, shape.joined, cutArrow?_append_cons shape.earliest shape.operator]
    simp [clear, cutLabel_append clearRight shape.label,
      (mention?_eq_some_iff clearLeft).mpr ⟨shape.sender, rfl⟩,
      (mention?_eq_some_iff clearRight).mpr ⟨shape.receiver, rfl⟩]

/-- A line is read as a marker exactly if it ends in a colon and has a name in front. -/
theorem marker?_eq_some_iff :
    marker? line = some statement ↔ IsMarker line ∧ statement = .mark (text line.dropLast) := by
  match line with
  | [] => simp [marker?, IsMarker]
  | [only] => simp [marker?, IsMarker]
  | first :: second :: more =>
      have final := List.getLast?_eq_some_getLast (List.cons_ne_nil second more)
      rw [marker?, IsMarker, List.getLast?_cons_cons, final, List.dropLast_cons_cons]
      generalize (second :: more).getLast (List.cons_ne_nil second more) = last
      by_cases colon : last.is ":" = true <;> simp [colon, @eq_comm _ statement]

end Free

section Keywords

variable {arguments : List Token}

/-- A form with a list fits unless nothing follows the keyword. -/
theorem withMentions?_eq_none_iff {statement : List Mention → Statement} :
    withMentions? arguments statement = none ↔ arguments = [] := by
  by_cases empty : arguments = [] <;> simp [withMentions?, empty]

/-- The form of a jump is left exactly by the lines that misfit it. -/
theorem jump?_eq_none_iff : jump? arguments = none ↔ Misfits .simultaneously arguments := by
  match arguments with
  | [] => simp [jump?, Misfits]
  | [only] => by_cases colon : only.is ":" = true <;> simp [jump?, Misfits, colon]
  | word :: next :: more =>
      have final := List.getLast?_eq_some_getLast (List.cons_ne_nil next more)
      rw [jump?, Misfits, List.getLast?_cons_cons, final, List.dropLast_cons_cons]
      generalize (next :: more).getLast (List.cons_ne_nil next more) = last
      by_cases colon : last.is ":" = true <;> simp [colon]

/-- The form of a note is left exactly by the lines that misfit it. -/
theorem readNote_eq_none_iff {style : NoteStyle} :
    readNote style arguments = .ok none ↔ Misfits (.note style) arguments := by
  cases arguments with
  | nil => simp [readNote, Misfits]
  | cons word more =>
      rw [readNote, Misfits]
      cases position : NoteForm.ofWord? style word.value with
      | none => simp [position]
      | some form =>
          -- The position is not the colon itself.
          have plain : word.is ":" = false := by
            rw [Bool.eq_false_iff, Token.is, ne_eq, beq_iff_eq]
            intro colon
            rw [colon, NoteForm.ofWord?_colon] at position
            contradiction
          cases cut : cutAt? ":" more with
          | none =>
              have absent : ∀ token ∈ word :: more, token.is ":" = false :=
                List.forall_mem_cons.mpr ⟨plain, cutAt?_eq_none_iff.mp cut⟩
              exact iff_of_true rfl (.inl absent)
          | some parts =>
              obtain ⟨colon, rfl, found, -⟩ := cutAt?_eq_some_iff.mp cut
              have present : ¬∀ token ∈ word :: (parts.1 ++ colon :: parts.2),
                  token.is ":" = false := by
                intro absent
                simpa [found] using absent colon (by simp)
              simp only [present, false_or, List.head?_cons]
              split <;> simp [position]

/-- The form of a keyword gives nothing exactly if it does not fit. -/
theorem readForm_eq_none_iff {keyword : Keyword} :
    readForm keyword arguments = .ok none ↔ Misfits keyword arguments := by
  cases keyword with
  | define => simp [readForm, Misfits, withMentions?_eq_none_iff]
  | enter => simp [readForm, Misfits, withMentions?_eq_none_iff]
  | leave =>
      by_cases empty : arguments = [] <;> simp [readForm, Misfits, withMentions?, empty]
  | simultaneously => simp [readForm, jump?_eq_none_iff]
  | note style =>
      rw [← readNote_eq_none_iff, readForm]
      cases readNote style arguments <;> simp [Except.map]
  | terminators =>
      rw [readForm]
      cases readTerminators arguments <;> simp [Except.map, Misfits]
  | otherwise =>
      rw [readForm]
      cases readOtherwise arguments <;> simp [Except.map, Misfits]
  | _ => simp [readForm, Misfits]

/-- No keyword form reads a line that no keyword claims. -/
theorem readKeyword_of_unclaimed {line : Line} (unclaimed : Unclaimed line) :
    readKeyword line = .ok none := by
  cases line with
  | nil => contradiction
  | cons first arguments =>
      rw [readKeyword]
      split
      · next keyword found => exact readForm_eq_none_iff.mpr (unclaimed keyword found)
      · rfl

end Keywords

section Unclaimed

variable {line : Line}

/-- A line is no message exactly if no operator of it stands between two ends. -/
theorem message?_eq_none_iff : message? line = none ↔
    ¬∃ left sign arrow right rest, IsMessage line left sign arrow right rest := by
  constructor
  · rintro none ⟨left, sign, arrow, right, rest, shape⟩
    rw [message?_eq_some_iff.mpr ⟨left, sign, arrow, right, rest, shape, rfl⟩] at none
    contradiction
  · intro shapeless
    rw [Option.eq_none_iff_forall_ne_some]
    intro statement read
    obtain ⟨left, sign, arrow, right, rest, shape, -⟩ := message?_eq_some_iff.mp read
    exact shapeless ⟨left, sign, arrow, right, rest, shape⟩

/-- A line is no marker exactly if it is not a name with a colon behind it. -/
theorem marker?_eq_none_iff : marker? line = none ↔ ¬IsMarker line := by
  rw [Option.eq_none_iff_forall_ne_some]
  simp only [ne_eq, marker?_eq_some_iff, not_and]
  exact ⟨fun refused marker => refused _ marker rfl, fun unmarked _ marker => absurd marker unmarked⟩

/-- A message is read where no keyword claims the line. -/
theorem read_of_message {statement : Statement} (unclaimed : Unclaimed line)
    (message : message? line = some statement) : read line = .ok (.statement statement) := by
  rw [read, readKeyword_of_unclaimed unclaimed, readFree, message]
  rfl

/-- A marker is read where the line is no message either. -/
theorem read_of_marker {statement : Statement} (unclaimed : Unclaimed line)
    (message : message? line = none) (marker : marker? line = some statement) :
    read line = .ok (.statement statement) := by
  rw [read, readKeyword_of_unclaimed unclaimed, readFree, message, marker]
  rfl

/-- A line that is neither is refused. -/
theorem read_of_neither (unclaimed : Unclaimed line) (message : message? line = none)
    (marker : marker? line = none) : read line = .error ⟨line, .noStatement⟩ := by
  rw [read, readKeyword_of_unclaimed unclaimed, readFree, message, marker]
  rfl

end Unclaimed

/-- A line that no keyword claims is a message exactly if it has the parts of one, otherwise a
marker exactly if it ends in a colon behind some other token, and otherwise it is refused as
unknown. -/
theorem read_of_unclaimed {line : Line} (unclaimed : Unclaimed line) :
    (∀ sender receiver arrow label,
      read line = .ok (.statement (.message sender receiver arrow label)) ↔
        ∃ left sign right rest, IsMessage line left sign arrow right rest ∧
          sender = mentionOf left ∧ receiver = mentionOf right ∧ label = text rest.tail) ∧
    (∀ name, read line = .ok (.statement (.mark name)) ↔
      (¬∃ left sign arrow right rest, IsMessage line left sign arrow right rest) ∧
        IsMarker line ∧ name = text line.dropLast) ∧
    (∀ refusal, read line = .error refusal ↔
      (¬∃ left sign arrow right rest, IsMessage line left sign arrow right rest) ∧
        ¬IsMarker line ∧ refusal = ⟨line, .noStatement⟩) ∧
    ∀ refusal, read line = .error refusal →
      refusal.diagnostic.code.map Code.name = some "E100" := by
  rw [← message?_eq_none_iff, ← marker?_eq_none_iff]
  have parts (sender receiver : Mention) (arrow : Arrow) (label : String) :
      (∃ left sign right rest, IsMessage line left sign arrow right rest ∧
        sender = mentionOf left ∧ receiver = mentionOf right ∧ label = text rest.tail) ↔
      message? line = some (.message sender receiver arrow label) := by
    rw [message?_eq_some_iff]
    constructor
    · rintro ⟨left, sign, right, rest, shape, rfl, rfl, rfl⟩
      exact ⟨left, sign, arrow, right, rest, shape, rfl⟩
    · rintro ⟨left, sign, arrow, right, rest, shape, same⟩
      cases same
      exact ⟨left, sign, right, rest, shape, rfl, rfl, rfl⟩
  have mark (name : String) :
      IsMarker line ∧ name = text line.dropLast ↔ marker? line = some (.mark name) := by
    rw [marker?_eq_some_iff, Statement.mark.injEq]
  simp only [parts, mark]
  cases message : message? line with
  | some statement =>
      obtain ⟨left, sign, arrow, right, rest, -, rfl⟩ := message?_eq_some_iff.mp message
      simp [read_of_message unclaimed message]
  | none =>
      cases marker : marker? line with
      | some statement =>
          obtain ⟨-, rfl⟩ := marker?_eq_some_iff.mp marker
          simp [read_of_marker unclaimed message marker]
      | none =>
          have refused := read_of_neither unclaimed message marker
          refine ⟨by simp [refused], by simp [refused], by simp [refused, eq_comm], ?_⟩
          intro refusal given
          rw [refused] at given
          obtain rfl := Except.error.inj given
          rfl

/-- A line of a note without a position is a message, and its first end is called like a keyword. -/
theorem read_of_unclaimed_note :
    ∃ line : Line, line.map Token.value = ["note", "<--", "+", "B", "C", ":", "x", "->"] ∧
      Unclaimed line ∧ read line =
        .ok (.statement
          (.message ⟨"note", none⟩ ⟨"B C", some .arrive⟩ ⟨.dash, true, false⟩ "x ->")) := by
  let left : List Token := [⟨"", "note", false, .origin⟩]
  let right : List Token :=
    [⟨" ", "+", false, .origin⟩, ⟨"", "B", false, .origin⟩, ⟨" ", "C", false, .origin⟩]
  let rest : List Token :=
    [⟨"", ":", false, .origin⟩, ⟨" ", "x", false, .origin⟩, ⟨" ", "->", false, .origin⟩]
  have unclaimed : Unclaimed (left ++ ⟨" ", "<--", false, .origin⟩ :: (right ++ rest)) := by
    simp [left, Unclaimed, Keyword.ofWord?, Misfits, NoteForm.ofWord?]
  have shape : IsMessage (left ++ ⟨" ", "<--", false, .origin⟩ :: (right ++ rest)) left
      ⟨" ", "<--", false, .origin⟩ ⟨.dash, true, false⟩ right rest := by
    refine ⟨rfl, rfl, by decide, ?_, ?_, by decide⟩
    · simp [left, IsEnd, Token.is]
    · simp [right, IsEnd, Token.is, text]
  refine ⟨_, rfl, unclaimed, ((read_of_unclaimed unclaimed).1 _ _ _ _).mpr ?_⟩
  exact ⟨left, _, right, rest, shape, by decide, by decide, by decide⟩

end Line

end Lifeline
