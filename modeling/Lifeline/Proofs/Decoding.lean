import Lifeline.Proofs.Compaction

/-! Two diagrams are never written as the same text. -/

namespace Lifeline

namespace Json

/-- This is the value of a hexadecimal digit. -/
def digitValue (digit : Char) : Nat := "0123456789abcdef".toList.idxOf digit

theorem digitValue_hexDigit : ∀ value < 16, digitValue (hexDigit value) = value := by decide

/-- This function reads what stands behind a backslash. -/
def unescapeSign? : List Char → Option (Char × List Char)
  | 'b' :: rest => some ('\x08', rest)
  | 'f' :: rest => some ('\x0c', rest)
  | 'n' :: rest => some ('\n', rest)
  | 'r' :: rest => some ('\r', rest)
  | 't' :: rest => some ('\t', rest)
  | 'u' :: '0' :: '0' :: high :: low :: rest =>
      some (Char.ofNat (16 * digitValue high + digitValue low), rest)
  | sign :: rest => some (sign, rest)
  | [] => none

/-- This function reads one character of a string and gives what follows it. It gives nothing at the
quote that closes the string. -/
def unescape? : List Char → Option (Char × List Char)
  | [] => none
  | head :: rest =>
      if head = '\x22' then none
      else if head = '\\' then unescapeSign? rest
      else some (head, rest)

/-- The escape of a character is read back as the character. -/
theorem unescape?_escape (character : Char) (rest : List Char) :
    unescape? (escape character ++ rest) = some (character, rest) := by
  rcases escape_cases character with ⟨sign, listed, written⟩ |
    ⟨high, low, small, smaller, number, written⟩ | ⟨_, quote, backslash, written⟩
  · rw [written]
    simp only [signs, List.mem_cons, Prod.mk.injEq, List.not_mem_nil, or_false] at listed
    rcases listed with ⟨rfl, rfl⟩ | ⟨rfl, rfl⟩ | ⟨rfl, rfl⟩ | ⟨rfl, rfl⟩ | ⟨rfl, rfl⟩ |
      ⟨rfl, rfl⟩ | ⟨rfl, rfl⟩ <;> rfl
  · rw [written]
    change some (Char.ofNat (16 * digitValue (hexDigit high) + digitValue (hexDigit low)), rest) = _
    rw [digitValue_hexDigit high small, digitValue_hexDigit low smaller, number, Char.ofNat_toNat]
  · rw [written, List.singleton_append, unescape?, if_neg quote, if_neg backslash]

/-- A string ends at its own closing quote, and its text stands for it alone. -/
theorem quote_inj {first second : String} {rest behind : List Char}
    (same : quote first rest = quote second behind) : first = second ∧ rest = behind := by
  have content {first second : List Char} (same : first.flatMap escape ++ '\x22' :: rest =
      second.flatMap escape ++ '\x22' :: behind) : first = second ∧ rest = behind := by
    have closed (tail : List Char) : unescape? ('\x22' :: tail) = none := rfl
    induction first generalizing second with
    | nil =>
        cases second with
        | nil => exact ⟨rfl, (List.cons.inj same).2⟩
        | cons other others =>
            have read := congrArg unescape? same
            rw [List.flatMap_nil, List.nil_append, closed, List.flatMap_cons, List.append_assoc,
              unescape?_escape] at read
            contradiction
    | cons character more ih =>
        have read := congrArg unescape? same
        rw [List.flatMap_cons, List.append_assoc, unescape?_escape] at read
        cases second with
        | nil => contradiction
        | cons other others =>
            rw [List.flatMap_cons, List.append_assoc, unescape?_escape] at read
            obtain ⟨rfl, tails⟩ := Prod.mk.inj (Option.some.inj read)
            obtain ⟨rfl, ended⟩ := ih tails
            exact ⟨rfl, ended⟩
  obtain ⟨characters, ended⟩ := content (List.cons.inj same).2
  exact ⟨String.toList_injective characters, ended⟩

/-- A name in front of its colon is known by its text. -/
theorem writeName_inj {first second : String} {rest behind : List Char}
    (same : writeName .compact first rest = writeName .compact second behind) :
    first = second ∧ rest = behind := by
  obtain ⟨names, values⟩ := quote_inj same
  exact ⟨names, (List.cons.inj values).2⟩

/-- The first character of a text tells the kind of its value. -/
def opening : Json → Char
  | .boolean true => 't'
  | .boolean false => 'f'
  | .text _ => '\x22'
  | .list _ => '['
  | .record _ => '\x7b'

/-- The first character of a value tells its kind. -/
theorem head?_write (layout : Layout) (depth : Nat) (value : Json) (rest : List Char) :
    (write layout depth value rest).head? = some value.opening := by
  cases value with
  | boolean value => cases value <;> rfl
  | text value => rfl
  | list items => cases items <;> rfl
  | record fields => cases fields <;> rfl

/-- Values with the same text are of one kind. -/
theorem kind_of_write_eq {depth : Nat} {first second : Json} {rest behind : List Char} :
    write .compact depth first rest = write .compact depth second behind →
    match first with
    | .boolean value => second = .boolean value
    | .text _ => ∃ other, second = .text other
    | .list _ => ∃ others, second = .list others
    | .record _ => ∃ others, second = .record others := by
  intro same
  have heads := congrArg List.head? same
  rw [head?_write, head?_write] at heads
  replace heads := Option.some.inj heads
  cases first with
  | boolean value =>
      cases second with
      | boolean other => cases value <;> cases other <;> simp_all [opening]
      | _ => cases value <;> simp [opening] at heads
  | _ =>
      cases second with
      | boolean other => cases other <;> simp [opening] at heads
      | _ => simp_all [opening]

/-- No value begins with the end of a list. -/
theorem write_ne_bracket (depth : Nat) (value : Json) (rest behind : List Char) :
    write .compact depth value rest ≠ ']' :: behind := by
  intro same
  have heads := congrArg List.head? same
  rw [head?_write] at heads
  cases value with
  | boolean value => cases value <;> simp [opening] at heads
  | _ => simp [opening] at heads

mutual

/-- A text of a value ends by itself, and no other value has it. -/
theorem write_inj (depth : Nat) : ∀ (first second : Json) {rest behind : List Char},
    write .compact depth first rest = write .compact depth second behind →
      first = second ∧ rest = behind
  | .boolean value, second, _, _, same => by
      obtain rfl : second = .boolean value := kind_of_write_eq same
      cases value <;> simpa [write] using same
  | .text value, second, _, _, same => by
      obtain ⟨other, rfl⟩ : ∃ other, second = .text other := kind_of_write_eq same
      obtain ⟨rfl, ended⟩ := quote_inj same
      exact ⟨rfl, ended⟩
  | .list [], second, _, _, same => by
      obtain ⟨others, rfl⟩ : ∃ others, second = .list others := kind_of_write_eq same
      cases others with
      | nil => simpa [write] using same
      | cons other others => exact absurd (List.cons.inj same).2.symm (write_ne_bracket _ _ _ _)
  | .list (item :: items), second, _, _, same => by
      obtain ⟨others, rfl⟩ : ∃ others, second = .list others := kind_of_write_eq same
      cases others with
      | nil => exact absurd (List.cons.inj same).2 (write_ne_bracket _ _ _ _)
      | cons other others =>
          obtain ⟨rfl, behindItem⟩ := write_inj (depth + 1) item other (List.cons.inj same).2
          obtain ⟨rfl, ended⟩ := writeItems_inj (depth + 1) items others behindItem
          exact ⟨rfl, ended⟩
  | .record [], second, _, _, same => by
      obtain ⟨others, rfl⟩ : ∃ others, second = .record others := kind_of_write_eq same
      cases others with
      | nil => simpa [write] using same
      | cons other others => exact absurd (List.cons.inj (List.cons.inj same).2).1 (by decide)
  | .record ((name, value) :: fields), second, _, _, same => by
      obtain ⟨others, rfl⟩ : ∃ others, second = .record others := kind_of_write_eq same
      cases others with
      | nil => exact absurd (List.cons.inj (List.cons.inj same).2).1 (by decide)
      | cons other others =>
          obtain ⟨other, content⟩ := other
          obtain ⟨rfl, behindName⟩ := writeName_inj (List.cons.inj same).2
          obtain ⟨rfl, behindValue⟩ := write_inj (depth + 1) value content behindName
          obtain ⟨rfl, ended⟩ := writeFields_inj (depth + 1) fields others behindValue
          exact ⟨rfl, ended⟩

/-- The items of a list are known by their text up to the closing bracket. -/
theorem writeItems_inj (depth : Nat) : ∀ (first second : List Json) {rest behind : List Char},
    writeItems .compact depth first (']' :: rest) =
      writeItems .compact depth second (']' :: behind) → first = second ∧ rest = behind
  | [], [], _, _, same => ⟨rfl, (List.cons.inj same).2⟩
  | [], other :: others, _, _, same => absurd (List.cons.inj same).1 (by decide)
  | item :: items, [], _, _, same => absurd (List.cons.inj same).1 (by decide)
  | item :: items, other :: others, _, _, same => by
      obtain ⟨rfl, behindItem⟩ := write_inj depth item other (List.cons.inj same).2
      obtain ⟨rfl, ended⟩ := writeItems_inj depth items others behindItem
      exact ⟨rfl, ended⟩

/-- The fields of a record are known by their text up to the closing brace. -/
theorem writeFields_inj (depth : Nat) :
    ∀ (first second : List (String × Json)) {rest behind : List Char},
    writeFields .compact depth first ('\x7d' :: rest) =
      writeFields .compact depth second ('\x7d' :: behind) → first = second ∧ rest = behind
  | [], [], _, _, same => ⟨rfl, (List.cons.inj same).2⟩
  | [], other :: others, _, _, same => absurd (List.cons.inj same).1 (by decide)
  | field :: fields, [], _, _, same => absurd (List.cons.inj same).1 (by decide)
  | (name, value) :: fields, (other, content) :: others, _, _, same => by
      obtain ⟨rfl, behindName⟩ := writeName_inj (List.cons.inj same).2
      obtain ⟨rfl, behindValue⟩ := write_inj depth value content behindName
      obtain ⟨rfl, ended⟩ := writeFields_inj depth fields others behindValue
      exact ⟨rfl, ended⟩

end

/-- In either layout a text stands for one value only. -/
theorem render_inj {layout : Layout} {first second : Json} :
    first.render layout = second.render layout ↔ first = second := by
  constructor
  · intro same
    -- Whatever the layout, the text tells the compact one.
    have squeezed : Place.squeeze .outside (first.render layout).toList =
        Place.squeeze .outside (second.render layout).toList := by
      rw [same]
    rw [squeeze_toList_render, squeeze_toList_render, render, render, String.toList_ofList,
      String.toList_ofList] at squeezed
    exact (write_inj 0 first second squeezed).1
  · rintro rfl
    rfl

end Json

theorem Terminator.name_inj {first second : Terminator} :
    first.name = second.name ↔ first = second := by
  refine ⟨fun same => ?_, congrArg name⟩
  have read := congrArg ofName? same
  rw [ofName?_name, ofName?_name] at read
  exact Option.some.inj read

theorem LineStyle.name_inj {first second : LineStyle} :
    first.name = second.name ↔ first = second := by
  cases first <;> cases second <;> simp [name]

theorem BlockMode.keyword_inj {first second : BlockMode} :
    first.keyword = second.keyword ↔ first = second := by
  cases first <;> cases second <;> simp [keyword]

theorem NoteStyle.keyword_inj {first second : NoteStyle} :
    first.keyword = second.keyword ↔ first = second := by
  cases first <;> cases second <;> simp [keyword]

theorem NotePosition.stageType_inj {first second : NotePosition} :
    first.stageType = second.stageType ↔ first = second := by
  cases first <;> cases second <;> simp [stageType, name]

namespace Stage

theorem names_inj {first second : List String} : names first = names second ↔ first = second := by
  refine ⟨fun same => ?_, congrArg names⟩
  exact (List.map_inj_right fun _ _ => Json.text.inj).mp (Json.list.inj same)

/-- The type comes first in the record of a stage. -/
def type : Stage → String
  | .mark _ => "mark"
  | .jump _ => "async"
  | .message _ _ _ _ => "connection"
  | .enter _ _ => "agent-begin"
  | .leave _ _ => "agent-end"
  | .note position _ _ _ => position.stageType
  | .block _ _ _ => "block"

/-- The first field of a stage tells its type. -/
theorem exists_toJson (stage : Stage) :
    ∃ fields, stage.toJson = .record (("type", .text stage.type) :: fields) := by
  cases stage <;> exact ⟨_, rfl⟩

/-- Stages with the same value are of one kind. -/
theorem kind_of_toJson_eq {first second : Stage} : first.toJson = second.toJson →
    match first with
    | .mark _ => ∃ name, second = .mark name
    | .jump _ => ∃ target, second = .jump target
    | .message _ _ _ _ => ∃ sender receiver arrow label,
        second = .message sender receiver arrow label
    | .enter _ _ => ∃ about mode, second = .enter about mode
    | .leave _ _ => ∃ about mode, second = .leave about mode
    | .note _ _ _ _ => ∃ position style about label, second = .note position style about label
    | .block _ _ _ => ∃ left right sections, second = .block left right sections := by
  intro same
  obtain ⟨fields, written⟩ := first.exists_toJson
  obtain ⟨others, writtenToo⟩ := second.exists_toJson
  have types : first.type = second.type := by
    rw [written, writtenToo] at same
    simp_all
  -- No other type is one of the four that notes have.
  have notes (position : NotePosition) : ∀ word ∈ ["mark", "async", "connection", "agent-begin",
      "agent-end", "block"], word ≠ position.stageType ∧ position.stageType ≠ word := by
    cases position <;> decide
  simp only [List.forall_mem_cons] at notes
  clear same written writtenToo
  cases first <;> cases second <;> simp_all [type]

mutual

/-- A stage is known by its value. -/
theorem toJson_inj : ∀ {first second : Stage}, first.toJson = second.toJson → first = second
  | .mark name, second, same => by
      obtain ⟨other, rfl⟩ : ∃ other, second = .mark other := kind_of_toJson_eq same
      simpa [toJson] using same
  | .jump target, second, same => by
      obtain ⟨other, rfl⟩ : ∃ other, second = .jump other := kind_of_toJson_eq same
      simpa [toJson] using same
  | .message sender receiver arrow label, second, same => by
      obtain ⟨source, target, other, text, rfl⟩ : ∃ sender receiver arrow label,
        second = .message sender receiver arrow label := kind_of_toJson_eq same
      obtain ⟨style, left, right⟩ := arrow
      obtain ⟨line, start, stop⟩ := other
      simpa [toJson, names_inj, LineStyle.name_inj, and_assoc] using same
  | .enter about mode, second, same => by
      obtain ⟨others, other, rfl⟩ : ∃ about mode, second = .enter about mode :=
        kind_of_toJson_eq same
      simpa [toJson, names_inj, Terminator.name_inj] using same
  | .leave about mode, second, same => by
      obtain ⟨others, other, rfl⟩ : ∃ about mode, second = .leave about mode :=
        kind_of_toJson_eq same
      simpa [toJson, names_inj, Terminator.name_inj] using same
  | .note position style about label, second, same => by
      obtain ⟨place, kind, others, text, rfl⟩ : ∃ position style about label,
        second = .note position style about label := kind_of_toJson_eq same
      simp only [toJson, Json.record.injEq, List.cons.injEq, Prod.mk.injEq, Json.text.injEq,
        names_inj, NotePosition.stageType_inj, NoteStyle.keyword_inj, true_and, and_true] at same
      obtain ⟨positions, names, styles, labels⟩ := same
      rw [positions, names, styles, labels]
  | .block left right sections, second, same => by
      obtain ⟨start, stop, others, rfl⟩ : ∃ left right sections,
        second = .block left right sections := kind_of_toJson_eq same
      simp only [toJson, Json.record.injEq, List.cons.injEq, Prod.mk.injEq, Json.text.injEq,
        Json.list.injEq, true_and, and_true] at same
      obtain ⟨lefts, rights, inside⟩ := same
      rw [lefts, rights, sectionsToJson_inj inside]

/-- The sections of a block are known by their values. -/
theorem sectionsToJson_inj : ∀ {first second : List (Section Stage)},
    sectionsToJson first = sectionsToJson second → first = second
  | [], [], _ => rfl
  | [], other :: others, same => by cases same
  | ⟨mode, label, stages⟩ :: rest, [], same => by cases same
  | ⟨mode, label, stages⟩ :: rest, ⟨otherMode, otherLabel, others⟩ :: more, same => by
      simp only [sectionsToJson, List.cons.injEq, Json.record.injEq, Prod.mk.injEq, Json.text.injEq,
        Json.list.injEq, true_and, and_true, BlockMode.keyword_inj] at same
      obtain ⟨⟨modes, labels, inside⟩, behind⟩ := same
      rw [modes, labels, stagesToJson_inj inside, sectionsToJson_inj behind]

/-- A list of stages is known by its values. -/
theorem stagesToJson_inj : ∀ {first second : List Stage},
    stagesToJson first = stagesToJson second → first = second
  | [], [], _ => rfl
  | [], other :: others, same => by cases same
  | stage :: rest, [], same => by cases same
  | stage :: rest, other :: more, same => by
      obtain ⟨head, tail⟩ := List.cons.inj same
      rw [toJson_inj head, stagesToJson_inj tail]

end

end Stage

/-- A header is known by its value. -/
theorem Header.toJson_inj {first second : Header} (same : first.toJson = second.toJson) :
    first = second := by
  obtain ⟨title, mode⟩ := first
  obtain ⟨other, terminators⟩ := second
  simpa [toJson, Terminator.name_inj] using same

/-- A diagram is known by its value. -/
theorem Diagram.toJson_inj {first second : Diagram} (same : first.toJson = second.toJson) :
    first = second := by
  obtain ⟨header, columns, stages⟩ := first
  obtain ⟨other, names, others⟩ := second
  simp only [toJson, Json.record.injEq, List.cons.injEq, Prod.mk.injEq, Json.list.injEq,
    Stage.names_inj, true_and, and_true] at same
  obtain ⟨headers, listed, inside⟩ := same
  rw [Header.toJson_inj headers, listed, Stage.stagesToJson_inj inside]

/-- In either layout, two diagrams have the same text only if they are the same diagram. -/
theorem render_diagram_inj (layout : Json.Layout) (first second : Diagram) :
    first.render layout = second.render layout ↔ first = second := by
  constructor
  · intro same
    exact Diagram.toJson_inj (Json.render_inj.mp same)
  · rintro rfl
    rfl

end Lifeline
