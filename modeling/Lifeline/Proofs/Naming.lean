import Lifeline.Proofs.Notes
import Lifeline.Proofs.Pointers
import Lifeline.Proofs.UniqueNames
import Lifeline.Proofs.Verbatim

/-! Only an end of a message can be a participant without a name. -/

namespace Lifeline

namespace Line

/-- Hollow tokens are empty quotations, one directly behind the other. -/
def IsHollow (tokens : List Token) : Prop :=
  (∀ token ∈ tokens, token.quoted = true ∧ token.value = "") ∧
    ∀ token ∈ tokens.tail, token.separator = ""

/-- Only a quotation can be empty. -/
def IsLexed (tokens : List Token) : Prop :=
  ∀ token ∈ tokens, token.value = "" → token.quoted = true

section Texts

variable {tokens : List Token}

/-- A trail is empty if all of its tokens are, together with their separators. -/
theorem trail_eq_empty_iff :
    trail tokens = "" ↔ ∀ token ∈ tokens, token.separator = "" ∧ token.value = "" := by
  induction tokens with
  | nil => simp [trail]
  | cons token rest ih => simp [trail_cons, String.append_eq_empty_iff, ih]

/-- The text of tokens is empty exactly if they are hollow. -/
theorem text_eq_empty_iff (lexed : IsLexed tokens) : text tokens = "" ↔ IsHollow tokens := by
  cases tokens with
  | nil => simp [IsHollow]
  | cons first rest =>
      rw [text_cons, String.append_eq_empty_iff, trail_eq_empty_iff, IsHollow, List.tail_cons]
      constructor
      · rintro ⟨empty, others⟩
        refine ⟨fun token member => ?_, fun token member => (others token member).1⟩
        have hollow : token.value = "" := by
          rcases List.mem_cons.mp member with rfl | behind
          · exact empty
          · exact (others token behind).2
        exact ⟨lexed token member hollow, hollow⟩
      · rintro ⟨empty, joined⟩
        exact ⟨(empty first List.mem_cons_self).2, fun token member =>
          ⟨joined token member, (empty token (List.mem_cons_of_mem first member)).2⟩⟩

/-- An end of a message has no name exactly if it is hollow. -/
theorem name_mentionOf_eq_empty_iff (lexed : IsLexed tokens) (ends : IsEnd tokens) :
    (mentionOf tokens).name = "" ↔ IsHollow tokens := by
  obtain ⟨nonempty, _, named⟩ := ends
  obtain ⟨first, rest, rfl⟩ := List.exists_cons_of_ne_nil nonempty
  rw [← text_eq_empty_iff lexed]
  by_cases flagged : first.is "+" = true ∨ first.is "-" = true
  · have nonempty : first.value ≠ "" := by
      rcases flagged with arrives | departs
      · simp [Token.is_iff.mp arrives]
      · simp [Token.is_iff.mp departs]
    have filled : text (first :: rest) ≠ "" := by
      simp [text_cons, String.append_eq_empty_iff, nonempty]
    have name : (mentionOf (first :: rest)).name = text rest := by
      rcases flagged with arrives | departs
      · simp [mentionOf, arrives]
      · by_cases arrives : first.is "+" = true <;> simp [mentionOf, arrives, departs]
    simp [name, named first rest rfl flagged, filled]
  · obtain ⟨arrives, departs⟩ := not_or.mp flagged
    simp [mentionOf, arrives, departs]

/-- A list names nobody exactly if all runs between its commas are hollow. -/
theorem names_eq_nil_iff (lexed : IsLexed tokens) :
    names tokens = [] ↔ ∃ runs, CutAtCommas tokens runs ∧ ∀ run ∈ runs, IsHollow run := by
  have silent {runs : List (List Token)} (cut : CutAtCommas tokens runs) :
      names tokens = [] ↔ ∀ run ∈ runs, IsHollow run := by
    have parts (run : List Token) (member : run ∈ runs) : IsLexed run := by
      rw [cutAtCommas_iff.mp cut] at member
      exact fun token inside => lexed token ((infix_of_mem_splitOnP member).subset inside)
    rw [names_of_cutAtCommas cut, namesOf, List.filter_eq_nil_iff]
    simp only [List.forall_mem_map, bne_iff_ne, ne_eq, not_not]
    exact forall₂_congr fun run member => text_eq_empty_iff (parts run member)
  constructor
  · intro nobody
    exact ⟨_, cutAtCommas_iff.mpr rfl, (silent (cutAtCommas_iff.mpr rfl)).mp nobody⟩
  · rintro ⟨runs, cut, hollow⟩
    exact (silent cut).mpr hollow

/-- The tokens of a source are empty only where they are quoted. -/
theorem IsLineOf.isLexed {line : Line} {source : String} (part : line.IsLineOf source) :
    IsLexed line := by
  intro token member empty
  obtain ⟨tokens, cut, found⟩ := part
  obtain ⟨body, _, written⟩ :=
    (Token.tiles_of_tokenize cut).written token ((sublist_of_mem_split found).subset member)
  by_contra bare
  have filled := written.ne_nil
  rw [Token.IsWritten, if_neg bare] at written
  exact filled (by simp [written.1, empty])

end Texts

end Line

/-- These statements list participants. -/
def Statement.listed? : Statement → Option (List Mention)
  | .define mentions => some mentions
  | .enter mentions _ => some mentions
  | .leave mentions _ => some mentions
  | _ => none

def Statement.isMessage : Statement → Bool
  | .message _ _ _ _ => true
  | _ => false

/-- These keywords stand in front of a list. -/
def Keyword.lists : Keyword → Bool
  | .define => true
  | .enter => true
  | .leave => true
  | _ => false

namespace Line

/-- A keyword form leaves nobody without a name and gives no message. It gives a list exactly if the
keyword stands in front of lists and something is listed. -/
structure Spoken (keyword : Keyword) (arguments : List Token) (statement : Statement) : Prop where
  named : "" ∉ statement.mentioned
  unsent : statement.isMessage = false
  listed : statement.listed? =
    if keyword.lists = true ∧ arguments ≠ [] then some (mentions arguments) else none

section Forms

variable {keyword : Keyword} {arguments tokens : List Token} {statement : Statement}

/-- A list names nobody without a name. -/
theorem empty_notMem_names : "" ∉ names tokens := by simp [names]

/-- A list mentions nobody without a name. -/
theorem empty_notMem_mentions : "" ∉ (mentions tokens).map Mention.name := by
  simpa [mentions, Function.comp_def] using empty_notMem_names

/-- A line that goes on with `else` splits a block. -/
theorem exists_of_readOtherwise (said : readOtherwise arguments = .ok statement) :
    ∃ label, statement = .splitBlock .otherwise label := by
  unfold readOtherwise at said
  repeat' split at said
  all_goals cases said
  all_goals exact ⟨_, rfl⟩

/-- A line with a jump says where to. -/
theorem exists_of_jump? (said : jump? arguments = some statement) :
    ∃ target, statement = .jump target := by
  unfold jump? at said
  repeat' split at said
  all_goals cases said
  all_goals exact ⟨_, rfl⟩

/-- A line with a note mentions the names of its list. -/
theorem exists_of_readNote {style : NoteStyle}
    (said : readNote style arguments = .ok (some statement)) :
    ∃ position about label, statement = .note position style (mentions about) label := by
  cases arguments with
  | nil => cases said
  | cons word rest =>
      rw [readNote] at said
      split at said
      · dsimp only at said
        split at said <;> cases said
        exact ⟨_, _, _, rfl⟩
      · cases said

theorem spoken_of_withMentions? {form : List Mention → Statement} (lists : keyword.lists = true)
    (lists? : ∀ about, (form about).listed? = some about)
    (unsent : ∀ about, (form about).isMessage = false)
    (mentioned : ∀ about, (form about).mentioned = about.map Mention.name)
    (said : (withMentions? arguments form).map Entry.statement = some (.statement statement)) :
    Spoken keyword arguments statement := by
  obtain ⟨_, found, same⟩ := Option.map_eq_some_iff.mp said
  cases same
  rw [withMentions?] at found
  split at found
  · contradiction
  · next filled =>
      cases found
      refine ⟨?_, unsent _, by rw [lists?, if_pos ⟨lists, filled⟩]⟩
      rw [mentioned]
      exact empty_notMem_mentions

/-- Every keyword form says what is spoken of. -/
theorem spoken_of_readForm
    (said : readForm keyword arguments = .ok (some (.statement statement))) :
    Spoken keyword arguments statement := by
  cases keyword with
  | title => cases said
  | terminators =>
      obtain ⟨mode, _, same⟩ := except_map_eq_ok.mp said
      cases same
  | alternative =>
      cases said
      exact ⟨List.not_mem_nil, rfl, rfl⟩
  | loop =>
      cases said
      exact ⟨List.not_mem_nil, rfl, rfl⟩
  | otherwiseIf =>
      cases said
      exact ⟨List.not_mem_nil, rfl, rfl⟩
  | otherwise =>
      obtain ⟨_, reads, same⟩ := except_map_eq_ok.mp said
      cases same
      obtain ⟨label, rfl⟩ := exists_of_readOtherwise reads
      exact ⟨List.not_mem_nil, rfl, rfl⟩
  | simultaneously =>
      obtain ⟨_, reads, same⟩ := Option.map_eq_some_iff.mp (Except.ok.inj said)
      cases same
      obtain ⟨target, rfl⟩ := exists_of_jump? reads
      exact ⟨List.not_mem_nil, rfl, rfl⟩
  | note style =>
      obtain ⟨_, reads, same⟩ := except_map_eq_ok.mp said
      obtain ⟨_, rfl, same⟩ := Option.map_eq_some_iff.mp same
      cases same
      obtain ⟨position, about, label, rfl⟩ := exists_of_readNote reads
      exact ⟨empty_notMem_mentions, rfl, rfl⟩
  | define =>
      exact spoken_of_withMentions? rfl (fun _ => rfl) (fun _ => rfl) (fun _ => rfl)
        (Except.ok.inj said)
  | enter =>
      exact spoken_of_withMentions? rfl (fun _ => rfl) (fun _ => rfl) (fun _ => rfl)
        (Except.ok.inj said)
  | leave =>
      rw [readForm] at said
      split at said
      · next empty =>
          -- A lone keyword closes a block.
          cases said
          exact ⟨List.not_mem_nil, rfl, by simp [Statement.listed?, empty]⟩
      · exact spoken_of_withMentions? rfl (fun _ => rfl) (fun _ => rfl) (fun _ => rfl)
          (Except.ok.inj said)

end Forms

/-- A hollow list has its keyword in front, and between its commas nothing other than hollow runs.
-/
def IsHollowList (line : Line) : Prop :=
  ∃ keyword : Keyword, keyword.lists = true ∧ ∃ first arguments, line = first :: arguments ∧
    first.value = keyword.word ∧ arguments ≠ [] ∧
    ∃ runs, CutAtCommas arguments runs ∧ ∀ run ∈ runs, IsHollow run

section Statements

variable {line : Line} {statement : Statement}

/-- A line without a keyword form is read freely, and otherwise its keyword speaks. -/
theorem unclaimed_or_spoken (nonempty : line ≠ [])
    (said : read line = .ok (.statement statement)) :
    Unclaimed line ∧ ReadsFreely line (.ok (.statement statement)) ∨
      ∃ first arguments keyword, line = first :: arguments ∧ first.value = keyword.word ∧
        Spoken keyword arguments statement := by
  obtain ⟨first, arguments, rfl⟩ := List.exists_cons_of_ne_nil nonempty
  by_cases unclaimed : Unclaimed (first :: arguments)
  · exact .inl ⟨unclaimed, (read_eq_iff_readsFreely unclaimed _).mp said⟩
  · right
    have ⟨keyword, found, fits⟩ : ∃ keyword, Keyword.ofWord? first.value = some keyword ∧
        ¬Misfits keyword arguments := by
      simpa [Unclaimed] using unclaimed
    refine ⟨first, arguments, keyword, rfl, Keyword.ofWord?_eq_some_iff.mp found, ?_⟩
    have keyed : readKeyword (first :: arguments) = readForm keyword arguments := by
      rw [readKeyword, found]
    rw [read, keyed] at said
    cases reads : readForm keyword arguments with
    | error cause =>
        rw [reads] at said
        cases said
    | ok entry? =>
        cases entry? with
        | none => exact absurd (readForm_eq_none_iff.mp reads) fits
        | some entry =>
            rw [reads] at said
            cases said
            exact spoken_of_readForm reads

/-- The ends of a message are named unless they are hollow. -/
theorem ends_of_read (lexed : IsLexed line) (nonempty : line ≠ []) {sender receiver : Mention}
    {arrow : Arrow} {label : String}
    (said : read line = .ok (.statement (.message sender receiver arrow label))) :
    ∃ left sign right rest, IsMessage line left sign arrow right rest ∧
      sender = mentionOf left ∧ receiver = mentionOf right ∧
      (sender.name = "" ↔ IsHollow left) ∧ (receiver.name = "" ↔ IsHollow right) := by
  rcases unclaimed_or_spoken nonempty said with ⟨_, free⟩ | ⟨_, _, _, _, _, spoken⟩
  · cases free with
    | @message left right rest sign _ shape =>
        have inside (part : List Token) (within : part ⊆ line) : IsLexed part :=
          fun token member => lexed token (within member)
        refine ⟨left, sign, right, rest, shape, rfl, rfl,
          name_mentionOf_eq_empty_iff (inside left ?_) shape.sender,
          name_mentionOf_eq_empty_iff (inside right ?_) shape.receiver⟩
        · rw [shape.joined]
          simp
        · rw [shape.joined]
          intro token member
          simp [member]
  · exact absurd spoken.unsent (by simp [Statement.isMessage])

/-- Only a message can mention somebody without a name. -/
theorem empty_notMem_mentioned (nonempty : line ≠ [])
    (said : read line = .ok (.statement statement)) (unsent : statement.isMessage = false) :
    "" ∉ statement.mentioned := by
  rcases unclaimed_or_spoken nonempty said with ⟨_, free⟩ | ⟨_, _, _, _, _, spoken⟩
  · cases free with
    | message shape => cases unsent
    | marker shapeless shape => exact List.not_mem_nil
  · exact spoken.named

/-- A list names nobody exactly if it is a list of hollow names. -/
theorem listed?_eq_nil_iff (lexed : IsLexed line) (nonempty : line ≠ [])
    (said : read line = .ok (.statement statement)) :
    statement.listed? = some [] ↔ IsHollowList line := by
  rcases unclaimed_or_spoken nonempty said with
    ⟨unclaimed, free⟩ | ⟨first, arguments, keyword, rfl, keyed, spoken⟩
  · have unlisted : statement.listed? = none := by
      cases free <;> rfl
    rw [unlisted]
    constructor
    · simp
    · rintro ⟨keyword, lists, first, arguments, rfl, keyed, filled, _⟩
      have misfits := unclaimed keyword (Keyword.ofWord?_eq_some_iff.mpr keyed)
      cases keyword <;> first | exact absurd misfits filled | contradiction
  · have behind : IsLexed arguments := fun token member =>
      lexed token (List.mem_cons_of_mem first member)
    rw [spoken.listed]
    constructor
    · intro listed
      split at listed
      · next lists =>
          have nobody : names arguments = [] := by simpa [mentions] using listed
          exact ⟨keyword, lists.1, first, arguments, rfl, keyed, lists.2,
            (names_eq_nil_iff behind).mp nobody⟩
      · cases listed
    · rintro ⟨other, lists, _, _, same, keyedToo, filled, hollow⟩
      obtain ⟨rfl, rfl⟩ := List.cons.inj same
      have found := Keyword.ofWord?_eq_some_iff.mpr keyed
      rw [Keyword.ofWord?_eq_some_iff.mpr keyedToo] at found
      obtain rfl := Option.some.inj found
      rw [if_pos ⟨lists, filled⟩, mentions, (names_eq_nil_iff behind).mpr hollow]
      rfl

end Statements

end Line

/-- A source that is parsed has been cut into lines that are read. -/
theorem lines_of_parse {header : Header} {source : String} {document : Document}
    (parsed : parse header source = .ok document) :
    ∃ tokens, tokenize source = .ok tokens ∧
      Document.ofLines header (Line.split tokens) = .ok document := by
  rw [parse] at parsed
  split at parsed
  · cases parsed
  · next tokens cut =>
      refine ⟨tokens, cut, ?_⟩
      cases reads : Document.ofLines header (Line.split tokens) with
      | error refusal =>
          rw [reads] at parsed
          cases parsed
      | ok made =>
          rw [reads] at parsed
          cases parsed
          rfl

/-- Every statement of a source stands on a line of its own. It leaves nobody without a name unless
it is a message, and an end of a message has no name exactly if it is hollow. A list names nobody
exactly if it is hollow. -/
theorem named_statements_parse {header : Header} {source : String} {document : Document}
    (parsed : parse header source = .ok document) :
    ∀ located ∈ document.statements, ∃ line, Line.IsLineOf line source ∧
      Line.read line = .ok (.statement located.statement) ∧ located.span = Line.span line ∧
      (located.statement.isMessage = false → "" ∉ located.statement.mentioned) ∧
      (∀ sender receiver arrow label,
        located.statement = .message sender receiver arrow label →
          ∃ left sign right rest, Line.IsMessage line left sign arrow right rest ∧
            sender = Line.mentionOf left ∧ receiver = Line.mentionOf right ∧
            (sender.name = "" ↔ Line.IsHollow left) ∧
            (receiver.name = "" ↔ Line.IsHollow right)) ∧
      (located.statement.listed? = some [] ↔ Line.IsHollowList line) := by
  intro located member
  obtain ⟨tokens, cut, reads⟩ := lines_of_parse parsed
  obtain ⟨line, stands, said, place⟩ := Document.exists_of_mem_statements reads member
  have part : Line.IsLineOf line source := ⟨tokens, cut, stands⟩
  refine ⟨line, part, said, place, Line.empty_notMem_mentioned part.ne_nil said, ?_,
    Line.listed?_eq_nil_iff part.isLexed part.ne_nil said⟩
  intro sender receiver arrow label same
  rw [same] at said
  exact Line.ends_of_read part.isLexed part.ne_nil said

/-- Two empty quotations send a message, and a list skips the third one. -/
theorem named_statements_parse_quotations :
    ∃ document, parse {} "\x22\x22'' -> -B\nend '', A\n" = .ok document ∧
      document.statements.map Located.statement =
        [.message ⟨"", none⟩ ⟨"B", some .depart⟩ .plain "", .leave [⟨"A", none⟩] .cross] ∧
      ∀ located ∈ document.statements, ∃ line,
        Line.IsLineOf line "\x22\x22'' -> -B\nend '', A\n" ∧
        Line.read line = .ok (.statement located.statement) ∧
        (located.statement.isMessage = false → "" ∉ located.statement.mentioned) ∧
        (located.statement.listed? = some [] ↔ Line.IsHollowList line) := by
  have statements : (parse {} "\x22\x22'' -> -B\nend '', A\n").toOption.map
      (fun document => document.statements.map Located.statement) =
        some [.message ⟨"", none⟩ ⟨"B", some .depart⟩ .plain "",
          .leave [⟨"A", none⟩] .cross] := by
    decide +kernel
  obtain ⟨document, found, listed⟩ := Option.map_eq_some_iff.mp statements
  have parsed := except_toOption_eq_some.mp found
  refine ⟨document, parsed, listed, fun located member => ?_⟩
  obtain ⟨line, part, said, _, named, _, hollow⟩ := named_statements_parse parsed located member
  exact ⟨line, part, said, named, hollow⟩

/-- An empty quotation can send a message, and a comma alone can make a list. -/
theorem parse_unnamed :
    ∃ document, parse {} "\x22\x22 -> B\ndefine ,\n" = .ok document ∧
      document.statements.map Located.statement =
        [.message ⟨"", none⟩ ⟨"B", none⟩ .plain "", .define []] := by
  have statements : (parse {} "\x22\x22 -> B\ndefine ,\n").toOption.map
      (fun document => document.statements.map Located.statement) =
        some [.message ⟨"", none⟩ ⟨"B", none⟩ .plain "", .define []] := by
    decide +kernel
  obtain ⟨document, found, listed⟩ := Option.map_eq_some_iff.mp statements
  exact ⟨document, except_toOption_eq_some.mp found, listed⟩

end Lifeline
