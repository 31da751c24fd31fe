import Lifeline.Compile
import Lifeline.Proofs.Notes
import Lifeline.Proofs.Reading

/-! The written lines of a document are read back as the document. -/

namespace Lifeline

/-- These are the values of the tokens that lexemes make. -/
def Lexeme.values (lexemes : List Lexeme) : List String :=
  lexemes.filterMap fun lexeme => lexeme.value?.map String.ofList

/-- The tokens of lexemes have their values, in their order. -/
theorem Token.map_value_ofLexemes (offset : Nat) (pending : List Char) (lexemes : List Lexeme) :
    (ofLexemes offset pending lexemes).map Token.value = Lexeme.values lexemes := by
  induction lexemes generalizing offset pending with
  | nil => rfl
  | cons lexeme rest ih =>
      cases valued : lexeme.value? with
      | none =>
          rw [ofLexemes_of_none valued, ih]
          simp [Lexeme.values, valued]
      | some value =>
          rw [ofLexemes_of_some valued, List.map_cons, ih]
          simp [Lexeme.values, valued]

/-- An unquoted newline is the only token that ends a line. -/
theorem Token.isLineBreak_of_mem_ofLexemes {offset : Nat} {pending rest : List Char}
    {lexemes : List Lexeme} (cut : Lexeme.Cut lexemes rest) (inside : Lexeme.newline ∉ lexemes) :
    ∀ token ∈ ofLexemes offset pending lexemes, token.isLineBreak = false := by
  induction lexemes generalizing offset pending with
  | nil => simp [ofLexemes]
  | cons lexeme more ih =>
      obtain ⟨formed, _, behind⟩ := cut
      obtain ⟨differs, absent⟩ := not_or.mp (mt List.mem_cons.mpr inside)
      cases valued : lexeme.value? with
      | none =>
          rw [ofLexemes_of_none valued]
          exact ih behind absent
      | some value =>
          rw [ofLexemes_of_some valued]
          refine List.forall_mem_cons.mpr ⟨?_, ih behind absent⟩
          by_contra breaks
          simp only [isLineBreak, Bool.not_eq_false, Bool.and_eq_true, Bool.not_eq_true',
            beq_iff_eq] at breaks
          obtain ⟨bare, written⟩ := breaks
          have single : value = ['\n'] := String.ofList_injective written
          have start := Lexeme.text_of_value? valued bare
          rw [single] at start
          exact differs (formed.eq_newline start).symm

section Values

open Lexeme

@[simp] theorem values_nil : values [] = [] := rfl

@[simp] theorem values_append (first second : List Lexeme) :
    values (first ++ second) = values first ++ values second := List.filterMap_append

variable {others : List Lexeme}

@[simp] theorem values_gap_cons : values (gap :: others) = values others := rfl

@[simp] theorem values_comma_cons : values (comma :: others) = "," :: values others := rfl

@[simp] theorem values_colon_cons : values (colon :: others) = ":" :: values others := rfl

@[simp] theorem values_plain_cons (word : String) :
    values (plain word :: others) = word :: values others := by
  simp [values, plain, value?]

@[simp] theorem values_symbols_cons (text : String) :
    values (symbols text.toList :: others) = text :: values others := by
  simp [values, value?]

@[simp] theorem values_quoted_cons (text : String) :
    values (quoted text :: others) = text :: values others := by
  have spells : Quoted.Spells '\x22' (Quoted.escape '\x22' text.toList) text.toList :=
    Quoted.spells_escape rfl text.toList
  simp [values, quoted, value?, Quoted.decode_of_spells spells]

@[simp] theorem values_listing (names : List String) :
    values (listing names) = names.intersperse "," := by
  cases names with
  | nil => rfl
  | cons first rest =>
      rw [listing, values_quoted_cons]
      induction rest generalizing first with
      | nil => rfl
      | cons second more ih => simpa using ih second

end Values

section Names

/-- A name in a list is neither empty nor a comma. -/
theorem names_of_values {tokens : List Token} {names : List String}
    (values : tokens.map Token.value = names.intersperse ",")
    (proper : ∀ name ∈ names, name ≠ "" ∧ name ≠ ",") : Line.names tokens = names := by
  suffices parts : ∃ runs, Line.CutAtCommas tokens runs ∧ Line.namesOf runs = names by
    obtain ⟨runs, cut, named⟩ := parts
    rw [Line.names_of_cutAtCommas cut, named]
  induction names generalizing tokens with
  | nil =>
      obtain rfl := List.map_eq_nil_iff.mp values
      exact ⟨[[]], .last (by simp), rfl⟩
  | cons first rest ih =>
      obtain ⟨⟨filled, differs⟩, others⟩ := List.forall_mem_cons.mp proper
      have clear (token : Token) (same : token.value = first) :
          ∀ member ∈ [token], member.is "," = false := by
        simpa [Token.is, same] using differs
      cases rest with
      | nil =>
          obtain ⟨token, _, rfl, same, empty⟩ := List.map_eq_cons_iff.mp values
          obtain rfl := List.map_eq_nil_iff.mp empty
          exact ⟨[[token]], .last (clear token same), by simp [Line.namesOf, same, filled]⟩
      | cons second more =>
          rw [List.intersperse_cons_cons] at values
          obtain ⟨token, _, rfl, same, values⟩ := List.map_eq_cons_iff.mp values
          obtain ⟨comma, behind, rfl, separates, values⟩ := List.map_eq_cons_iff.mp values
          obtain ⟨runs, cut, named⟩ := ih values others
          refine ⟨[token] :: runs, .comma (clear token same) (Token.is_iff.mpr separates) cut, ?_⟩
          rw [← named]
          simp [Line.namesOf, same, filled]

/-- A list of names between commas is read back. -/
theorem mentions_of_values {tokens : List Token} {mentions : List Mention}
    (values : tokens.map Token.value = (mentions.map Mention.name).intersperse ",")
    (listed : ∀ mention ∈ mentions, mention.IsListed) : Line.mentions tokens = mentions := by
  have proper : ∀ name ∈ mentions.map Mention.name, name ≠ "" ∧ name ≠ "," := by
    intro name member
    obtain ⟨mention, inside, rfl⟩ := List.mem_map.mp member
    have named := (listed mention inside).2
    exact ⟨named.1, named.ne_sign (by decide)⟩
  rw [Line.mentions, names_of_values values proper, List.map_map]
  refine (List.map_congr_left fun mention inside => ?_).trans (List.map_id mentions)
  have unflagged := (listed mention inside).1
  cases mention
  simp_all

end Names

section Messages

/-- No name is read as an operator. -/
theorem IsName.ofOperator? {name : String} (proper : IsName name) :
    Arrow.ofOperator? name = none := by
  unfold Arrow.ofOperator?
  split <;> first | rfl | exact absurd rfl (proper.ne_sign (by decide))

/-- An arrow with a head is read back from its operator. -/
theorem Arrow.ofOperator?_operator {arrow : Arrow}
    (head : arrow.left = true ∨ arrow.right = true) :
    ofOperator? arrow.operator = some arrow := by
  obtain ⟨style, left, right⟩ := arrow
  cases style <;> cases left <;> cases right <;> first | rfl | simp at head

/-- These are the values of a mention's tokens. -/
def Mention.values (mention : Mention) : List String :=
  mention.flag.elim [] (fun flag => [flag.sign]) ++ [mention.name]

@[simp] theorem Mention.values_lexemes (mention : Mention) :
    Lexeme.values mention.lexemes = mention.values := by
  cases flagged : mention.flag <;> simp [lexemes, values, flagged]

/-- A mention holds no operator and no colon. -/
theorem Mention.plain_of_mem_values {mention : Mention} (proper : IsName mention.name) :
    ∀ value ∈ mention.values, Arrow.ofOperator? value = none ∧ value ≠ ":" := by
  have named : mention.name ≠ ":" := proper.ne_sign (by decide)
  cases flagged : mention.flag with
  | none => simp [values, flagged, proper.ofOperator?, named]
  | some flag =>
      have sign : Arrow.ofOperator? flag.sign = none ∧ flag.sign ≠ ":" := by
        cases flag <;> exact ⟨rfl, by decide⟩
      simp [values, flagged, proper.ofOperator?, named, sign]

/-- A name with its sign is read back. -/
theorem mention?_of_values {tokens : List Token} {mention : Mention}
    (values : tokens.map Token.value = mention.values) (proper : IsName mention.name) :
    Line.mention? tokens = some mention := by
  obtain ⟨name, flag⟩ := mention
  cases flag with
  | none =>
      obtain ⟨token, rest, rfl, same, empty⟩ := List.map_eq_cons_iff.mp values
      have unsigned : Flag.ofSign? name = none := by
        unfold Flag.ofSign?
        split <;> first | rfl | exact absurd rfl (proper.ne_sign (by decide))
      obtain rfl := List.map_eq_nil_iff.mp empty
      rw [Line.mention?, same, unsigned]
      simp [same]
  | some flag =>
      obtain ⟨sign, behind, rfl, signed, values⟩ := List.map_eq_cons_iff.mp values
      obtain ⟨token, rest, rfl, same, empty⟩ := List.map_eq_cons_iff.mp values
      obtain rfl := List.map_eq_nil_iff.mp empty
      rw [Line.mention?, signed, Flag.ofSign?_sign]
      simp [same, proper.1]

/-- Without an operator, a line is not cut. -/
theorem cutArrow?_eq_none {tokens : List Token}
    (absent : ∀ token ∈ tokens, Arrow.ofOperator? token.value = none) :
    Line.cutArrow? tokens = none := by
  induction tokens with
  | nil => rfl
  | cons first rest ih =>
      obtain ⟨plain, others⟩ := List.forall_mem_cons.mp absent
      rw [Line.cutArrow?, plain, ih others]
      rfl

/-- A message is read back from the values of its line. -/
theorem message?_of_values {tokens : List Token} {sender receiver : Mention} {arrow : Arrow}
    {label : String}
    (values : tokens.map Token.value =
      sender.values ++ arrow.operator :: (receiver.values ++ [":", label]))
    (sent : IsName sender.name) (received : IsName receiver.name)
    (head : arrow.left = true ∨ arrow.right = true) :
    Line.message? tokens = some (.message sender receiver arrow label) := by
  simp only [List.map_eq_append_iff, List.map_eq_cons_iff, List.map_eq_nil_iff] at values
  obtain ⟨before, _, rfl, starts, operator, _, rfl, pointed, target, _, rfl, ends, colon, _, rfl,
    separates, last, _, rfl, labelled, rfl⟩ := values
  have plain {mention : Mention} (proper : IsName mention.name) {tokens : List Token}
      (values : tokens.map Token.value = mention.values) (token : Token) (member : token ∈ tokens) :
      Arrow.ofOperator? token.value = none ∧ token.value ≠ ":" :=
    Mention.plain_of_mem_values proper _ (values ▸ List.mem_map_of_mem member)
  have arrowed : Arrow.ofOperator? operator.value = some arrow := by
    rw [pointed, Arrow.ofOperator?_operator head]
  have cut : Line.cutLabel (target ++ [colon, last]) = (target, label) := by
    have absent (token : Token) (member : token ∈ target) : token.is ":" = false := by
      simpa [Token.is] using (plain received ends token member).2
    have found : colon.is ":" = true := by simp [Token.is, separates]
    rw [Line.cutLabel, cutAt?_append_cons absent found]
    simp [labelled]
  have clear : before.any (fun token => token.is ":") = false := by
    refine List.any_eq_false.mpr fun token member => ?_
    simpa [Token.is] using (plain sent starts token member).2
  rw [Line.message?, cutArrow?_append_cons (fun token member => (plain sent starts token member).1)
    arrowed]
  simp [clear, cut, mention?_of_values starts sent, mention?_of_values ends received]

end Messages

section Notes

/-- Every value in a list is a separator or a name. -/
theorem mem_of_mem_intersperse {separator value : String} {names : List String}
    (member : value ∈ names.intersperse separator) : value = separator ∨ value ∈ names := by
  induction names with
  | nil => cases member
  | cons first rest ih =>
      cases rest with
      | nil => exact .inr member
      | cons second more =>
          rw [List.intersperse_cons_cons] at member
          rcases List.mem_cons.mp member with rfl | member
          · exact .inr List.mem_cons_self
          rcases List.mem_cons.mp member with rfl | member
          · exact .inl rfl
          · exact (ih member).imp_right (List.mem_cons_of_mem _)

@[simp] theorem values_noteLexemes (position : NotePosition) (names : List String) :
    Lexeme.values (noteLexemes position names) =
      Lexeme.values position.lexemes ++ names.intersperse "," := by
  cases names <;> simp [noteLexemes]

/-- A position beside a participant is written with its filler. -/
theorem values_position (position : NotePosition) : Lexeme.values position.lexemes =
    position.name :: (if position.isBeside then some "of" else none).toList := by
  cases position <;> simp [NotePosition.lexemes, NotePosition.name, NotePosition.isBeside]

/-- Neither the filler of a position nor a list of names holds a colon. -/
theorem colon_not_mem_of_isListed {position : NotePosition} {mentions : List Mention}
    (listed : ∀ mention ∈ mentions, mention.IsListed) :
    ":" ∉ Lexeme.values position.lexemes ++ (mentions.map Mention.name).intersperse "," := by
  intro member
  rcases List.mem_append.mp member with placed | named
  · cases position <;> simp [NotePosition.lexemes] at placed
  · rcases mem_of_mem_intersperse named with comma | name
    · exact absurd comma (by decide)
    · obtain ⟨mention, inside, same⟩ := List.mem_map.mp name
      exact absurd same ((listed mention inside).2.ne_sign (by decide))

/-- A filler that is written is a filler where it is read. -/
theorem isFiller_of_values {position : NotePosition} {filler about : List Token}
    (filled : filler.map Token.value = (if position.isBeside then some "of" else none).toList) :
    Line.IsFiller position filler about := by
  cases beside : position.isBeside with
  | false =>
      obtain rfl : filler = [] := by simpa [beside] using filled
      exact .absent fun other => absurd other (by simp [beside])
  | true =>
      obtain ⟨token, rfl, same⟩ : ∃ token, filler = [token] ∧ token.value = "of" := by
        simpa [beside, List.map_eq_singleton_iff] using filled
      exact .word beside (Token.is_iff.mpr same)

/-- A note is read back from the values behind its keyword. -/
theorem readNote_of_values {style : NoteStyle} {position : NotePosition} {mentions : List Mention}
    {label : String} {tokens : List Token}
    (values : tokens.map Token.value = Lexeme.values position.lexemes ++
      ((mentions.map Mention.name).intersperse "," ++ [":", label]))
    (allowed : style.Allows position mentions.length)
    (listed : ∀ mention ∈ mentions, mention.IsListed) :
    Line.readNote style tokens = .ok (some (.note position style mentions label)) := by
  obtain ⟨form, found, rfl⟩ := NoteForm.exists_ofWord? ⟨_, allowed⟩
  obtain ⟨_, _, filler?, allows⟩ := NoteForm.of_ofWord? found
  have colonless := @colon_not_mem_of_isListed form.position mentions listed
  simp only [values_position, List.cons_append, List.map_eq_append_iff, List.map_eq_cons_iff,
    List.map_eq_nil_iff] at values
  obtain ⟨word, _, rfl, worded, filler, _, rfl, filled, about, _, rfl, named, colon, _, rfl,
    separates, last, _, rfl, labelled, rfl⟩ := values
  rw [values_position, List.cons_append, ← filled, ← named, ← List.map_append] at colonless
  have absent (token : Token) (member : token ∈ filler ++ about) : token.is ":" = false := by
    have differs : token.value ≠ ":" := fun same =>
      colonless (List.mem_cons_of_mem _ (same ▸ List.mem_map_of_mem member))
    simpa [Token.is] using differs
  have cut : Line.cutAt? ":" (filler ++ about ++ [colon, last]) = some (filler ++ about, [last]) :=
    cutAt?_append_cons absent (by simp [Token.is, separates])
  rw [Line.readNote, worded, found, ← List.append_assoc, cut]
  simp only [filler?, (isFiller_of_values filled).elim_dropWord, mentions_of_values named listed]
  simp [(allows _).mpr allowed, labelled]

end Notes

section Lines

variable {tokens : List Token}

/-- A line is read by the form of its keyword. -/
theorem read_of_keyword {first : Token} {arguments : List Token} {keyword : Keyword} {entry : Entry}
    (word : Keyword.ofWord? first.value = some keyword)
    (form : Line.readForm keyword arguments = .ok (some entry)) :
    Line.read (first :: arguments) = .ok entry := by
  rw [Line.read, Line.readKeyword, word]
  simp [form]

/-- A line without a keyword is read freely. -/
theorem read_of_free {first : Token} {rest : List Token} {statement : Statement}
    (word : Keyword.ofWord? first.value = none)
    (free : Line.readFree (first :: rest) = some statement) :
    Line.read (first :: rest) = .ok (.statement statement) := by
  rw [Line.read, Line.readKeyword, word]
  simp [free]

/-- A keyword and a list of participants are read as the change that the keyword stands for. -/
theorem read_of_listing {word : String} {keyword : Keyword} {mentions : List Mention}
    {statement : List Mention → Statement}
    (values : tokens.map Token.value = word :: (mentions.map Mention.name).intersperse ",")
    (some : mentions ≠ []) (listed : ∀ mention ∈ mentions, mention.IsListed)
    (known : Keyword.ofWord? word = .some keyword)
    (form : ∀ arguments, arguments ≠ [] → Line.readForm keyword arguments =
      .ok ((Line.withMentions? arguments statement).map .statement)) :
    Line.read tokens = .ok (.statement (statement mentions)) := by
  obtain ⟨first, arguments, rfl, worded, named⟩ := List.map_eq_cons_iff.mp values
  have filled : arguments ≠ [] := by
    rintro rfl
    obtain ⟨mention, more, rfl⟩ := List.exists_cons_of_ne_nil some
    cases more <;> simp at named
  refine read_of_keyword (by rw [worded, known]) ?_
  rw [form arguments filled, Line.withMentions?, if_neg filled, mentions_of_values named listed]
  rfl

/-- A keyword, a colon and a label are read as what the keyword says of the label. -/
theorem read_of_label {word label : String} {keyword : Keyword} {entry : Entry}
    (values : tokens.map Token.value = [word, ":", label])
    (known : Keyword.ofWord? word = .some keyword)
    (form : ∀ colon last : Token, colon.value = ":" → last.value = label →
      Line.readForm keyword [colon, last] = .ok (some entry)) :
    Line.read tokens = .ok entry := by
  simp only [List.map_eq_cons_iff, List.map_eq_nil_iff] at values
  obtain ⟨first, _, rfl, worded, colon, _, rfl, separates, last, _, rfl, labelled, rfl⟩ := values
  exact read_of_keyword (by rw [worded, known]) (form colon last separates labelled)

/-- The line of a message is read as the message. -/
theorem read_of_message {sender receiver : Mention} {arrow : Arrow} {label : String}
    (values : tokens.map Token.value =
      sender.values ++ arrow.operator :: (receiver.values ++ [":", label]))
    (sent : IsName sender.name) (leading : sender.flag = none → IsLeadingName sender.name)
    (received : IsName receiver.name) (head : arrow.left = true ∨ arrow.right = true) :
    Line.read tokens = .ok (.statement (.message sender receiver arrow label)) := by
  have found := message?_of_values values sent received head
  have word : ∃ value behind, sender.values = value :: behind ∧
      Keyword.ofWord? value = none := by
    cases flagged : sender.flag with
    | none => exact ⟨_, _, by rw [Mention.values, flagged]; rfl, (leading flagged).2⟩
    | some flag =>
        refine ⟨_, _, by rw [Mention.values, flagged]; rfl, ?_⟩
        cases flag <;> rfl
  obtain ⟨value, behind, starts, word⟩ := word
  rw [starts, List.cons_append] at values
  obtain ⟨first, rest, rfl, same, -⟩ := List.map_eq_cons_iff.mp values
  refine read_of_free (by rw [same, word]) ?_
  rw [Line.readFree, found]
  rfl

/-- The line of a mark is read as the mark. -/
theorem read_of_mark {name : String} (values : tokens.map Token.value = [name, ":"])
    (leading : IsLeadingName name) : Line.read tokens = .ok (.statement (.mark name)) := by
  simp only [List.map_eq_cons_iff, List.map_eq_nil_iff] at values
  obtain ⟨first, _, rfl, named, colon, _, rfl, separates, rfl⟩ := values
  have arrowless : Line.cutArrow? [first, colon] = none := by
    have plain : Arrow.ofOperator? ":" = none := rfl
    exact cutArrow?_eq_none (by simp [named, separates, leading.1.ofOperator?, plain])
  refine read_of_free (by rw [named, leading.2]) ?_
  simp [Line.readFree, Line.message?, arrowless, Line.marker?, Token.is, separates, named]

/-- The line of a jump is read as the jump. -/
theorem read_of_jump {target : String}
    (values : tokens.map Token.value = ["simultaneously", "with", target, ":"]) :
    Line.read tokens = .ok (.statement (.jump target)) := by
  simp only [List.map_eq_cons_iff, List.map_eq_nil_iff] at values
  obtain ⟨first, _, rfl, worded, word, _, rfl, joined, goal, _, rfl, named, colon, _, rfl,
    separates, rfl⟩ := values
  have known : Keyword.ofWord? first.value = some .simultaneously := by rw [worded]; rfl
  refine read_of_keyword known ?_
  simp [Line.readForm, Line.jump?, Token.is, separates, joined, named]

/-- The line of a statement is read as the statement. -/
theorem read_statement {statement : Statement} (writable : statement.Writable)
    (values : tokens.map Token.value = Lexeme.values statement.lexemes) :
    Line.read tokens = .ok (.statement statement) := by
  have block {label : String} (colon last : Token) (separates : colon.value = ":")
      (labelled : last.value = label) : Line.blockLabel [colon, last] = label := by
    simp [Line.blockLabel, Line.dropWord, Token.is, separates, labelled]
  cases statement with
  | define mentions =>
      rw [Statement.lexemes, values_plain_cons, values_gap_cons, values_listing] at values
      exact read_of_listing values writable.1 writable.2 rfl fun _ _ => rfl
  | enter mentions mode =>
      obtain ⟨rfl, some, listed⟩ := writable
      rw [Statement.lexemes, values_plain_cons, values_gap_cons, values_listing] at values
      exact read_of_listing values some listed rfl fun _ _ => rfl
  | leave mentions mode =>
      obtain ⟨rfl, some, listed⟩ := writable
      rw [Statement.lexemes, values_plain_cons, values_gap_cons, values_listing] at values
      exact read_of_listing values some listed rfl fun _ filled => if_neg filled
  | message sender receiver arrow label =>
      obtain ⟨sent, leading, received, head⟩ := writable
      exact read_of_message (by simpa [Statement.lexemes] using values) sent leading received head
  | note position style mentions label =>
      obtain ⟨allowed, listed⟩ := writable
      have written : tokens.map Token.value = style.keyword :: (Lexeme.values position.lexemes ++
          ((mentions.map Mention.name).intersperse "," ++ [":", label])) := by
        simpa [Statement.lexemes] using values
      obtain ⟨first, arguments, rfl, worded, named⟩ := List.map_eq_cons_iff.mp written
      have known : Keyword.ofWord? style.keyword = some (.note style) := by cases style <;> rfl
      refine read_of_keyword (by rw [worded, known]) ?_
      rw [Line.readForm, readNote_of_values named allowed listed]
      rfl
  | mark name => exact read_of_mark (by simpa [Statement.lexemes] using values) writable
  | jump target => exact read_of_jump (by simpa [Statement.lexemes] using values)
  | openBlock mode label =>
      have written : tokens.map Token.value = [mode.keyword, ":", label] := by
        simpa [Statement.lexemes] using values
      rcases writable with rfl | rfl
      · refine read_of_label written rfl fun colon last separates labelled => ?_
        rw [Line.readForm, block colon last separates labelled]
      · refine read_of_label written rfl fun colon last separates labelled => ?_
        rw [Line.readForm, block colon last separates labelled]
  | splitBlock mode label =>
      obtain rfl : mode = .otherwise := writable
      have written : tokens.map Token.value = ["else", ":", label] := by
        simpa [Statement.lexemes, BlockMode.keyword] using values
      refine read_of_label written rfl fun colon last separates labelled => ?_
      simp [Line.readForm, Line.readOtherwise, Token.is, separates, labelled, Except.map]
  | closeBlock =>
      obtain ⟨first, arguments, rfl, worded, empty⟩ := List.map_eq_cons_iff.mp values
      obtain rfl := List.map_eq_nil_iff.mp empty
      have known : Keyword.ofWord? first.value = some .leave := by rw [worded]; rfl
      exact read_of_keyword known rfl

/-- The line of an entry is read as the entry. -/
theorem read_entry {entry : Entry} (writable : entry.Writable)
    (values : tokens.map Token.value = Lexeme.values entry.lexemes) :
    Line.read tokens = .ok entry := by
  cases entry with
  | title text =>
      simp only [Entry.lexemes, values_plain_cons, values_gap_cons, values_quoted_cons,
        values_nil, List.map_eq_cons_iff, List.map_eq_nil_iff] at values
      obtain ⟨first, _, rfl, worded, last, _, rfl, titled, rfl⟩ := values
      have known : Keyword.ofWord? first.value = some .title := by rw [worded]; rfl
      refine read_of_keyword known ?_
      rw [Line.readForm, Line.text_singleton, titled]
  | terminators mode =>
      simp only [Entry.lexemes, values_plain_cons, values_gap_cons, values_nil,
        List.map_eq_cons_iff] at values
      obtain ⟨first, _, rfl, worded, last, rest, rfl, named, -⟩ := values
      have known : Keyword.ofWord? first.value = some .terminators := by rw [worded]; rfl
      refine read_of_keyword known ?_
      rw [Line.readForm, Line.readTerminators, named, Terminator.ofName?_name]
      rfl
  | statement body => exact read_statement writable values

end Lines

section Documents

open Lexeme

theorem newline_not_mem_listing (names : List String) : newline ∉ listing names := by
  cases names <;> simp [listing, gap, quoted]

/-- A statement is written on one line. -/
theorem Statement.newline_not_mem_lexemes (statement : Statement) :
    newline ∉ statement.lexemes := by
  have mention (mention : Mention) : newline ∉ mention.lexemes := by
    cases flagged : mention.flag <;> simp [Mention.lexemes, flagged, quoted]
  have note (position : NotePosition) (names : List String) :
      newline ∉ noteLexemes position names := by
    have placed : newline ∉ position.lexemes := by
      cases position <;> simp [NotePosition.lexemes, plain, gap]
    cases names <;> simp [noteLexemes, placed, gap, newline_not_mem_listing]
  cases statement <;>
    simp [lexemes, plain, gap, quoted, newline_not_mem_listing, mention, note]

/-- An entry is written on one line. -/
theorem Entry.newline_not_mem_lexemes (entry : Entry) : newline ∉ entry.lexemes := by
  cases entry with
  | statement body => exact body.newline_not_mem_lexemes
  | _ => simp [lexemes, plain, gap, quoted]

/-- These are the lexemes of entries that are written line by line. -/
def lexemesOf (entries : List Entry) : List Lexeme :=
  entries.flatMap fun entry => entry.lexemes ++ [newline]

theorem lexemesOf_cons (entry : Entry) (rest : List Entry) :
    lexemesOf (entry :: rest) = entry.lexemes ++ newline :: lexemesOf rest := by
  simp [lexemesOf]

theorem sourceOf_cons (entry : Entry) (rest : List Entry) :
    sourceOf (entry :: rest) = entry.source ++ "\n" ++ sourceOf rest := by
  rw [sourceOf, List.map_cons, String.join_cons, sourceOf]

/-- The lexemes of entries are written as their source. -/
theorem text_lexemesOf (entries : List Entry) :
    (lexemesOf entries).flatMap Lexeme.text = (sourceOf entries).toList := by
  induction entries with
  | nil => rfl
  | cons entry rest ih =>
      have written : newline.text = "\n".toList := rfl
      rw [lexemesOf_cons, List.flatMap_append, List.flatMap_cons, ih, entry.text_lexemes, written,
        sourceOf_cons, String.toList_append, String.toList_append, List.append_assoc]

/-- The source of entries is cut into their lexemes. -/
theorem cut_lexemesOf (entries : List Entry) : Cut (lexemesOf entries) [] := by
  induction entries with
  | nil => trivial
  | cons entry rest ih =>
      rw [lexemesOf_cons]
      refine cut_append.mpr ⟨entry.cut_lexemes _, trivial, ?_, ih⟩
      exact fun _ _ => rfl

/-- What has been written is cut into the tokens of its lexemes. -/
theorem tokenize_sourceOf (entries : List Entry) :
    tokenize (sourceOf entries) = .ok (Token.ofLexemes 0 [] (lexemesOf entries)) := by
  rw [tokenize, ← text_lexemesOf, scan_eq_of_cut (cut_lexemesOf entries)]

/-- The tokens of an entry make up one line. -/
theorem split_ofLexemes {entry : Entry} (writable : entry.Writable) (offset : Nat) :
    ∃ line, Line.split (Token.ofLexemes offset [] entry.lexemes) = [line] ∧
      Line.read line = .ok entry := by
  have read := read_entry writable (Token.map_value_ofLexemes offset [] entry.lexemes)
  refine ⟨_, ?_, read⟩
  have unbroken : ∀ token ∈ Token.ofLexemes offset [] entry.lexemes, token.isLineBreak = false :=
    Token.isLineBreak_of_mem_ofLexemes (entry.cut_lexemes []) entry.newline_not_mem_lexemes
  have filled : Token.ofLexemes offset [] entry.lexemes ≠ [] := by
    intro empty
    rw [empty] at read
    cases read
  rw [Line.split, List.splitOnP_eq_singleton unbroken]
  simpa using filled

/-- The lines of a document are read as its entries, one by one. -/
theorem mapM_read_split {entries : List Entry} (writable : ∀ entry ∈ entries, entry.Writable)
    (offset : Nat) :
    ∃ readings, (Line.split (Token.ofLexemes offset [] (lexemesOf entries))).mapM
        (fun line => (Line.read line).map fun entry => (entry, Line.span line)) = .ok readings ∧
      readings.map Prod.fst = entries := by
  induction entries generalizing offset with
  | nil => exact ⟨[], rfl, rfl⟩
  | cons entry rest ih =>
      obtain ⟨first, others⟩ := List.forall_mem_cons.mp writable
      obtain ⟨line, split, read⟩ := split_ofLexemes first offset
      rw [lexemesOf_cons, Token.ofLexemes_append]
      simp only [Token.ofLexemes, value?, Token.pendingAfter]
      rw [Line.split_append_cons _ _ rfl, split]
      obtain ⟨readings, found, same⟩ := ih others
        (offset + Text.byteCount (entry.lexemes.flatMap Lexeme.text) + Text.byteCount newline.text)
      refine ⟨(entry, Line.span line) :: readings, ?_, by rw [List.map_cons, same]⟩
      rw [List.singleton_append, List.mapM_cons, read, found]
      rfl

/-- Written entries are parsed to the document that they make up. -/
theorem parse_eq_of_writable (header : Header) {entries : List Entry}
    (writable : ∀ entry ∈ entries, entry.Writable) :
    ∃ readings, parse header (sourceOf entries) = .ok (Document.ofEntries header readings) ∧
      readings.map Prod.fst = entries := by
  obtain ⟨readings, found, same⟩ := mapM_read_split writable 0
  refine ⟨readings, ?_, same⟩
  rw [parse, tokenize_sourceOf]
  simp only [Document.ofLines, found]
  rfl

/-- A statement of an entry, if it is not about the header. -/
def Entry.statement? : Entry → Option Statement
  | .title _ => none
  | .terminators _ => none
  | .statement body => some body

/-- The entries about the header are applied in their order. -/
theorem header_ofEntries (header : Header) (readings : List (Entry × Span)) :
    (Document.ofEntries header readings).header =
      (readings.map Prod.fst).foldl Header.apply header := by
  rw [List.foldl_map]
  rfl

/-- The statements are the entries that are statements. -/
theorem statements_ofEntries (header : Header) (readings : List (Entry × Span)) :
    (Document.ofEntries header readings).statements.map Located.statement =
      (readings.map Prod.fst).filterMap Entry.statement? := by
  rw [Document.ofEntries, List.map_filterMap, List.filterMap_map]
  congr 1
  funext reading
  obtain ⟨entry, span⟩ := reading
  cases entry <;> rfl

theorem filterMap_statement? (statements : List Statement) :
    (statements.map Entry.statement).filterMap Entry.statement? = statements := by
  rw [List.filterMap_map]
  exact List.filterMap_some

theorem foldl_apply_statements (header : Header) (statements : List Statement) :
    (statements.map Entry.statement).foldl Header.apply header = header := by
  induction statements with
  | nil => rfl
  | cons statement rest ih => exact ih

end Documents

/-- A title, a mode and statements that are written line by line are parsed to themselves, whatever
the header was before. -/
theorem parse_sourceOf (header : Header) (title : String) (mode : Terminator)
    {statements : List Statement} (writable : ∀ statement ∈ statements, statement.Writable) :
    ∃ document,
      parse header (sourceOf (.title title :: .terminators mode :: statements.map .statement)) =
        .ok document ∧
      document.header = ⟨title, mode⟩ ∧
      document.statements.map Located.statement = statements := by
  have each : ∀ entry ∈ Entry.title title :: .terminators mode :: statements.map .statement,
      entry.Writable := by
    simpa [Entry.Writable] using writable
  obtain ⟨readings, parsed, same⟩ := parse_eq_of_writable header each
  refine ⟨_, parsed, ?_, ?_⟩
  · rw [header_ofEntries, same, List.foldl_cons, List.foldl_cons, foldl_apply_statements]
    rfl
  · rw [statements_ofEntries, same]
    exact filterMap_statement? statements

/-- Quotes, backslashes, newlines, signs and keywords are kept where they stand between quotes. -/
theorem parse_sourceOf_signs :
    ∃ document,
      parse {} (sourceOf (.title "# \x22end\x22" :: .terminators .bar ::
        [.openBlock .loop "a\\b",
          .message ⟨"end", some .arrive⟩ ⟨"x\ny", none⟩ ⟨.dash, true, true⟩ ":",
          .note .left .text [⟨"of", none⟩, ⟨"a, b", none⟩] "->",
          .mark "+ c", .jump ""].map .statement)) = .ok document ∧
      document.header = ⟨"# \x22end\x22", .bar⟩ ∧
      document.statements.map Located.statement =
        [.openBlock .loop "a\\b",
          .message ⟨"end", some .arrive⟩ ⟨"x\ny", none⟩ ⟨.dash, true, true⟩ ":",
          .note .left .text [⟨"of", none⟩, ⟨"a, b", none⟩] "->",
          .mark "+ c", .jump ""] :=
  parse_sourceOf {} "# \x22end\x22" .bar (by
    simp [Statement.Writable, IsName, signs, IsLeadingName, Mention.IsListed, NoteStyle.Allows,
      Keyword.ofWord?])

end Lifeline
