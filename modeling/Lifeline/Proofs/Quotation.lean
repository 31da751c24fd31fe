import Lifeline.Token.Quoted

/-! A content spells a value if each of its escapes stands for a character of the value. -/

namespace Lifeline.Quoted

/-- The content of a quotation with the given mark spells a value. -/
inductive Spells (mark : Char) : List Char → List Char → Prop where
  | nil : Spells mark [] []
  | newline {content value : List Char} (rest : Spells mark content value) :
      Spells mark ('\\' :: 'n' :: content) ('\n' :: value)
  | escaped {content value : List Char} (character : Char) (plain : endsLine character = false)
      (other : character ≠ 'n') (rest : Spells mark content value) :
      Spells mark ('\\' :: character :: content) (character :: value)
  | kept {content value : List Char} (character : Char) (ends : endsLine character = true)
      (rest : Spells mark (character :: content) value) :
      Spells mark ('\\' :: character :: content) ('\\' :: value)
  | literal {content value : List Char} (character : Char) (differs : character ≠ mark)
      (plain : character ≠ '\\') (rest : Spells mark content value) :
      Spells mark (character :: content) (character :: value)

/-- A mark ends no line. -/
theorem endsLine_of_isMark {mark : Char} (quotes : isMark mark = true) : endsLine mark = false := by
  simp only [isMark, Bool.or_eq_true, beq_iff_eq] at quotes
  rcases quotes with rfl | rfl
  · decide
  · decide

/-- The backslash is no mark. -/
theorem ne_backslash_of_isMark {mark : Char} (quotes : isMark mark = true) : mark ≠ '\\' := by
  rintro rfl
  contradiction

/-- A content spells nothing else than what it is decoded to. -/
theorem decode_of_spells {mark : Char} {content value : List Char}
    (spells : Spells mark content value) : decode content = value := by
  induction spells with
  | nil => rfl
  | newline rest ih =>
      rw [decode, if_neg (by decide), if_pos rfl, ih]
  | escaped character plain other rest ih =>
      rw [decode, if_neg (by simp [plain]), if_neg other, ih]
  | kept character ends rest ih => rw [decode, if_pos ends, ih]
  | literal character differs plain rest ih =>
      rw [decode, ih]
      exact fun _ _ escape => absurd escape plain

/-- The reader does not go past the mark behind a content. -/
theorem close?_of_spells {mark : Char} {content value : List Char} (quotes : isMark mark = true)
    (spells : Spells mark content value) (after : List Char) :
    close? mark (content ++ mark :: after) = some (content, after) := by
  induction spells with
  | nil =>
      rw [List.nil_append, close?, if_pos rfl]
      exact fun _ _ escape => absurd escape (ne_backslash_of_isMark quotes)
  | newline rest ih =>
      rw [List.cons_append, List.cons_append, close?, if_neg (by decide), ih]
      rfl
  | escaped character plain other rest ih =>
      rw [List.cons_append, List.cons_append, close?, if_neg (by simp [plain]), ih]
      rfl
  | kept character ends rest ih =>
      rw [List.cons_append] at ih
      rw [List.cons_append, List.cons_append, close?, if_pos ends, ih]
      rfl
  | literal character differs plain rest ih =>
      rw [List.cons_append, close?, if_neg differs, ih]
      · rfl
      · exact fun _ _ escape => absurd escape plain

/-- Whatever the reader takes for a content spells a value. -/
theorem spells_of_close? {mark : Char} {text content after : List Char}
    (quotes : isMark mark = true) (closed : close? mark text = some (content, after)) :
    ∃ value, Spells mark content value := by
  fun_induction close? mark text generalizing content with
  | case1 => cases closed
  | case2 next rest ends ih =>
      obtain ⟨⟨inner, behind⟩, found, equal⟩ := Option.map_eq_some_iff.mp closed
      cases equal
      obtain ⟨value, spells⟩ := ih found
      have joined := append_of_close? found
      cases inner with
      | nil =>
          -- The mark of a quotation ends no line.
          obtain ⟨rfl, _⟩ := List.cons.inj joined
          rw [endsLine_of_isMark quotes] at ends
          contradiction
      | cons head content =>
          obtain ⟨rfl, _⟩ := List.cons.inj joined
          exact ⟨_, .kept head ends spells⟩
  | case3 next rest plain ih =>
      obtain ⟨⟨inner, behind⟩, found, equal⟩ := Option.map_eq_some_iff.mp closed
      cases equal
      obtain ⟨value, spells⟩ := ih found
      by_cases newline : next = 'n'
      · rw [newline]
        exact ⟨_, .newline spells⟩
      · exact ⟨_, .escaped next (Bool.eq_false_iff.mpr plain) newline spells⟩
  | case4 rest other =>
      cases closed
      exact ⟨[], .nil⟩
  | case5 head rest other differs ih =>
      obtain ⟨⟨inner, behind⟩, found, equal⟩ := Option.map_eq_some_iff.mp closed
      cases equal
      obtain ⟨value, spells⟩ := ih found
      have plain : head ≠ '\\' := by
        intro escape
        cases rest with
        | nil => cases found
        | cons next more => exact other next more escape rfl
      exact ⟨_, .literal head differs plain spells⟩

/-- A mark and a backslash are spelled with a backslash in front, and any other character by itself.
-/
theorem Spells.append_escape {mark : Char} {content value : List Char}
    (quotes : isMark mark = true) (character : Char) (rest : Spells mark content value) :
    Spells mark ((if character = mark ∨ character = '\\' then ['\\', character] else [character]) ++
      content) (character :: value) := by
  split
  · next special =>
      have plain : endsLine character = false ∧ character ≠ 'n' := by
        rcases special with rfl | rfl
        · refine ⟨endsLine_of_isMark quotes, ?_⟩
          rintro rfl
          contradiction
        · decide
      exact .escaped character plain.1 plain.2 rest
  · next special =>
      rw [not_or] at special
      exact .literal character special.1 special.2 rest

/-- This content spells a value with a backslash in front of each mark and each backslash. -/
def escape (mark : Char) (value : List Char) : List Char :=
  value.flatMap fun character =>
    if character = mark ∨ character = '\\' then ['\\', character] else [character]

/-- The escaped form of a value spells the value. -/
theorem spells_escape {mark : Char} (quotes : isMark mark = true) (value : List Char) :
    Spells mark (escape mark value) value := by
  induction value with
  | nil => exact .nil
  | cons character rest ih =>
      rw [escape, List.flatMap_cons, ← escape]
      exact ih.append_escape quotes character

end Lifeline.Quoted
