import Lifeline.Diagram.Json

/-! The two layouts of a JSON text differ only in gaps outside of its strings. -/

namespace Lifeline

namespace Json

/-- These characters have a sign that stands for them behind a backslash. -/
def signs : List (Char × Char) :=
  [('\x22', '\x22'), ('\\', '\\'), ('\x08', 'b'), ('\x0c', 'f'), ('\n', 'n'), ('\r', 'r'),
    ('\t', 't')]

/-- A character is escaped by a backslash and its sign, or by its number, or not at all. -/
theorem escape_cases (character : Char) :
    (∃ sign, (character, sign) ∈ signs ∧ escape character = ['\\', sign]) ∨
    (∃ high low, high < 16 ∧ low < 16 ∧ 16 * high + low = character.toNat ∧
      escape character = ['\\', 'u', '0', '0', hexDigit high, hexDigit low]) ∨
    (0x20 ≤ character.toNat ∧ character ≠ '\x22' ∧ character ≠ '\\' ∧
      escape character = [character]) := by
  unfold escape
  split
  · next same => exact Or.inl ⟨_, by rw [same]; decide, rfl⟩
  split
  · next same => exact Or.inl ⟨_, by rw [same]; decide, rfl⟩
  split
  · next same => exact Or.inl ⟨_, by rw [same]; decide, rfl⟩
  split
  · next same => exact Or.inl ⟨_, by rw [same]; decide, rfl⟩
  split
  · next same => exact Or.inl ⟨_, by rw [same]; decide, rfl⟩
  split
  · next same => exact Or.inl ⟨_, by rw [same]; decide, rfl⟩
  split
  · next same => exact Or.inl ⟨_, by rw [same]; decide, rfl⟩
  split
  · exact Or.inr (Or.inl ⟨_, _, by omega, by omega, Nat.div_add_mod _ _, rfl⟩)
  · next quote backslash _ _ _ _ _ high =>
      exact Or.inr (Or.inr ⟨by omega, quote, backslash, rfl⟩)

/-- A place in a text is outside of its strings, inside of one of them, or there behind a
backslash. -/
inductive Place where
  | outside
  | inside
  | escaped
  deriving DecidableEq

namespace Place

/-- A quote opens and closes a string, unless a backslash stands in front of it. -/
def after : Place → Char → Place
  | .outside, character => if character = '\x22' then .inside else .outside
  | .inside, character =>
      if character = '\x22' then .outside else if character = '\\' then .escaped else .inside
  | .escaped, _ => .inside

/-- These characters tell nothing outside of a string. -/
def isGap (place : Place) (character : Char) : Bool :=
  place == .outside && (character == ' ' || character == '\n')

/-- The text loses its blanks and newlines outside of strings. -/
def squeeze (place : Place) : List Char → List Char
  | [] => []
  | character :: rest =>
      if place.isGap character then squeeze (place.after character) rest
      else character :: squeeze (place.after character) rest

/-- A gap is left out. -/
theorem squeeze_cons_of_isGap {place : Place} {character : Char}
    (gap : place.isGap character = true) (rest : List Char) :
    place.squeeze (character :: rest) = (place.after character).squeeze rest :=
  if_pos gap

/-- What is no gap stays. -/
theorem squeeze_cons {place : Place} {character : Char} (kept : place.isGap character = false)
    (rest : List Char) :
    place.squeeze (character :: rest) = character :: (place.after character).squeeze rest :=
  if_neg (by simp [kept])

/-- The brackets and commas of a text stay, and what follows them is outside of its strings. -/
theorem squeeze_bracket_cons {sign : Char} (bracket : sign ∈ ['[', ']', '\x7b', '\x7d', ','])
    (rest : List Char) : squeeze .outside (sign :: rest) = sign :: squeeze .outside rest := by
  have plain : isGap .outside sign = false ∧ after .outside sign = .outside := by
    simp only [List.mem_cons, List.not_mem_nil, or_false] at bracket
    rcases bracket with rfl | rfl | rfl | rfl | rfl <;> exact ⟨rfl, rfl⟩
  rw [squeeze_cons plain.1, plain.2]

/-- Inside of a string nothing is left out. -/
theorem squeeze_inside_cons (character : Char) (rest : List Char) :
    squeeze .inside (character :: rest) = character :: squeeze (after .inside character) rest :=
  squeeze_cons rfl rest

/-- A hexadecimal digit neither ends a string nor begins an escape. -/
theorem after_hexDigit : ∀ value < 16, after .inside (hexDigit value) = .inside := by decide

/-- The escape of a character stays, and the string goes on behind it. -/
theorem squeeze_escape (character : Char) (rest : List Char) :
    squeeze .inside (escape character ++ rest) = escape character ++ squeeze .inside rest := by
  rcases escape_cases character with ⟨sign, _, written⟩ |
    ⟨high, low, small, smaller, _, written⟩ | ⟨_, quote, backslash, written⟩
  · rw [written]
    rfl
  · rw [written]
    change '\\' :: 'u' :: '0' :: '0' :: squeeze .inside (hexDigit high :: hexDigit low :: rest) = _
    rw [squeeze_inside_cons, after_hexDigit high small, squeeze_inside_cons,
      after_hexDigit low smaller]
    rfl
  · have stays : after .inside character = .inside := by
      rw [after, if_neg quote, if_neg backslash]
    rw [written, List.singleton_append, squeeze_inside_cons, stays]
    rfl

/-- A string stays, and behind it the text goes on outside. -/
theorem squeeze_quote (text : String) (rest : List Char) :
    squeeze .outside (quote text rest) = quote text (squeeze .outside rest) := by
  have content (characters : List Char) :
      squeeze .inside (characters.flatMap escape ++ '\x22' :: rest) =
        characters.flatMap escape ++ '\x22' :: squeeze .outside rest := by
    induction characters with
    | nil => rfl
    | cons character others ih =>
        rw [List.flatMap_cons, List.append_assoc, squeeze_escape, ih, List.append_assoc]
  rw [quote, quote, ← content]
  rfl

theorem squeeze_blanks (count : Nat) (rest : List Char) :
    squeeze .outside (List.replicate count ' ' ++ rest) = squeeze .outside rest := by
  induction count with
  | zero => rfl
  | succ count ih =>
      rw [List.replicate_succ, List.cons_append, squeeze_cons_of_isGap rfl]
      exact ih

@[simp] theorem squeeze_gap (layout : Layout) (depth : Nat) (rest : List Char) :
    squeeze .outside (layout.gap depth ++ rest) = squeeze .outside rest := by
  cases layout with
  | compact => rfl
  | indented =>
      rw [Layout.gap, List.cons_append, squeeze_cons_of_isGap rfl]
      exact squeeze_blanks (2 * depth) rest

theorem squeeze_colon (layout : Layout) (rest : List Char) :
    squeeze .outside (layout.colon ++ rest) = Layout.compact.colon ++ squeeze .outside rest := by
  cases layout <;> rfl

theorem squeeze_writeName (layout : Layout) (name : String) (rest : List Char) :
    squeeze .outside (writeName layout name rest) =
      writeName .compact name (squeeze .outside rest) := by
  rw [writeName, squeeze_quote, squeeze_colon, writeName]

mutual

/-- A value in any layout squeezes to its compact text. -/
theorem squeeze_write (layout : Layout) (depth other : Nat) : ∀ (value : Json) (rest : List Char),
    squeeze .outside (write layout depth value rest) =
      write .compact other value (squeeze .outside rest)
  | .boolean true, rest => rfl
  | .boolean false, rest => rfl
  | .text value, rest => squeeze_quote value rest
  | .list [], rest => rfl
  | .list (item :: items), rest => by
      rw [write, squeeze_bracket_cons (by decide), squeeze_gap,
        squeeze_write layout (depth + 1) (other + 1) item,
        squeeze_writeItems layout (depth + 1) (other + 1) items, squeeze_gap,
        squeeze_bracket_cons (by decide)]
      rfl
  | .record [], rest => rfl
  | .record ((name, value) :: fields), rest => by
      rw [write, squeeze_bracket_cons (by decide), squeeze_gap, squeeze_writeName,
        squeeze_write layout (depth + 1) (other + 1) value,
        squeeze_writeFields layout (depth + 1) (other + 1) fields, squeeze_gap,
        squeeze_bracket_cons (by decide)]
      rfl

theorem squeeze_writeItems (layout : Layout) (depth other : Nat) :
    ∀ (items : List Json) (rest : List Char),
    squeeze .outside (writeItems layout depth items rest) =
      writeItems .compact other items (squeeze .outside rest)
  | [], rest => rfl
  | item :: items, rest => by
      rw [writeItems, squeeze_bracket_cons (by decide), squeeze_gap,
        squeeze_write layout depth other item, squeeze_writeItems layout depth other items]
      rfl

theorem squeeze_writeFields (layout : Layout) (depth other : Nat) :
    ∀ (fields : List (String × Json)) (rest : List Char),
    squeeze .outside (writeFields layout depth fields rest) =
      writeFields .compact other fields (squeeze .outside rest)
  | [], rest => rfl
  | (name, value) :: fields, rest => by
      rw [writeFields, squeeze_bracket_cons (by decide), squeeze_gap, squeeze_writeName,
        squeeze_write layout depth other value, squeeze_writeFields layout depth other fields]
      rfl

end

/-- Squeezing makes no text longer. -/
theorem length_squeeze_le (place : Place) (text : List Char) :
    (place.squeeze text).length ≤ text.length := by
  induction text generalizing place with
  | nil => exact Nat.le_refl _
  | cons character rest ih =>
      have shorter := ih (place.after character)
      rw [squeeze]
      split
      · exact Nat.le_succ_of_le shorter
      · exact Nat.succ_le_succ shorter

/-- A text that loses nothing has nothing to lose anywhere. -/
theorem isGap_of_squeeze_eq {place : Place} {before after : List Char} {character : Char}
    (kept : place.squeeze (before ++ character :: after) = before ++ character :: after) :
    (before.foldl Place.after place).isGap character = false := by
  have first {place : Place} {head : Char} {rest : List Char}
      (kept : place.squeeze (head :: rest) = head :: rest) : place.isGap head = false := by
    rw [Bool.eq_false_iff]
    intro gap
    rw [squeeze_cons_of_isGap gap] at kept
    have shorter := length_squeeze_le (place.after head) rest
    rw [kept, List.length_cons] at shorter
    omega
  induction before generalizing place with
  | nil => exact first kept
  | cons head rest ih =>
      rw [List.cons_append, squeeze_cons (first kept)] at kept
      exact ih (List.cons.inj kept).2

end Place

/-- A printable text has no control characters of ASCII. -/
def Printable (text : List Char) : Prop := ∀ character ∈ text, 0x20 ≤ character.toNat

theorem printable_cons {character : Char} {rest : List Char} (high : 0x20 ≤ character.toNat)
    (printable : Printable rest) : Printable (character :: rest) :=
  List.forall_mem_cons.mpr ⟨high, printable⟩

/-- Control characters are always escaped. -/
theorem printable_escape (character : Char) : Printable (escape character) := by
  have digits : ∀ value < 16, 0x20 ≤ (hexDigit value).toNat := by decide
  rcases escape_cases character with ⟨sign, listed, written⟩ |
    ⟨high, low, small, smaller, _, written⟩ | ⟨plain, _, _, written⟩
  · have visible : ∀ pair ∈ signs, 0x20 ≤ pair.2.toNat := by decide
    rw [written]
    exact printable_cons (by decide) (printable_cons (visible _ listed) (by simp [Printable]))
  · rw [written]
    simp [Printable, digits high small, digits low smaller]
  · rw [written]
    exact printable_cons plain (by simp [Printable])

theorem printable_quote (text : String) {rest : List Char} (printable : Printable rest) :
    Printable (quote text rest) := by
  refine printable_cons (by decide) fun character member => ?_
  rcases List.mem_append.mp member with content | behind
  · obtain ⟨source, _, inside⟩ := List.mem_flatMap.mp content
    exact printable_escape source character inside
  · exact printable_cons (by decide) printable character behind

theorem printable_writeName (name : String) {rest : List Char} (printable : Printable rest) :
    Printable (writeName .compact name rest) :=
  printable_quote name (printable_cons (by decide) printable)

mutual

/-- The compact text of a value has no control characters. -/
theorem printable_write (depth : Nat) : ∀ (value : Json) {rest : List Char}, Printable rest →
    Printable (write .compact depth value rest)
  | .boolean true, _, printable => by simpa [write, Printable] using printable
  | .boolean false, _, printable => by simpa [write, Printable] using printable
  | .text value, _, printable => printable_quote value printable
  | .list [], _, printable => by simpa [write, Printable] using printable
  | .list (item :: items), _, printable =>
      printable_cons (by decide) (printable_write (depth + 1) item
        (printable_writeItems (depth + 1) items (printable_cons (by decide) printable)))
  | .record [], _, printable => by simpa [write, Printable] using printable
  | .record ((name, value) :: fields), _, printable =>
      printable_cons (by decide) (printable_writeName name (printable_write (depth + 1) value
        (printable_writeFields (depth + 1) fields (printable_cons (by decide) printable))))

theorem printable_writeItems (depth : Nat) : ∀ (items : List Json) {rest : List Char},
    Printable rest → Printable (writeItems .compact depth items rest)
  | [], _, printable => printable
  | item :: items, _, printable =>
      printable_cons (by decide)
        (printable_write depth item (printable_writeItems depth items printable))

theorem printable_writeFields (depth : Nat) :
    ∀ (fields : List (String × Json)) {rest : List Char}, Printable rest →
      Printable (writeFields .compact depth fields rest)
  | [], _, printable => printable
  | (name, value) :: fields, _, printable =>
      printable_cons (by decide) (printable_writeName name
        (printable_write depth value (printable_writeFields depth fields printable)))

end

/-- Both layouts of a value squeeze to the same text. -/
theorem squeeze_toList_render (layout : Layout) (value : Json) :
    Place.squeeze .outside (value.render layout).toList = (value.render .compact).toList := by
  rw [render, render, String.toList_ofList, String.toList_ofList]
  exact Place.squeeze_write layout 0 0 value []

end Json

/-- Without its blanks and newlines outside of strings, the indented text of a diagram is the
compact one. The compact text has no control characters and no blanks outside of strings, and so it
is one line. -/
theorem squeeze_render (diagram : Diagram) :
    Json.Place.squeeze .outside (diagram.render .indented).toList =
        (diagram.render .compact).toList ∧
      (∀ character ∈ (diagram.render .compact).toList, 0x20 ≤ character.toNat) ∧
      (∀ before after, (diagram.render .compact).toList = before ++ ' ' :: after →
        before.foldl Json.Place.after .outside ≠ .outside) ∧
      '\n' ∉ (diagram.render .compact).toList := by
  have printable : Json.Printable (diagram.render .compact).toList := by
    rw [Diagram.render, Json.render, String.toList_ofList]
    exact Json.printable_write 0 _ (by simp [Json.Printable])
  refine ⟨Json.squeeze_toList_render .indented _, printable, ?_, ?_⟩
  · intro before after split outside
    have kept := Json.squeeze_toList_render .compact diagram.toJson
    change Json.Place.squeeze .outside (diagram.render .compact).toList =
      (diagram.render .compact).toList at kept
    rw [split] at kept
    have solid := Json.Place.isGap_of_squeeze_eq kept
    rw [outside] at solid
    contradiction
  · intro newline
    exact absurd (printable '\n' newline) (by decide)

/-- A blank and a quote in a name stay. -/
example : Json.Place.squeeze .outside "[\n  \"a \\\" b\",\n  true\n]".toList =
    "[\"a \\\" b\",true]".toList := by
  decide

end Lifeline
