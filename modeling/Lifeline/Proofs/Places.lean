import Lifeline.Line
import Lifeline.Proofs.Tiling

/-! The spans of tokens and of lines begin and end between characters of their source. -/

namespace Lifeline

section Pieces

variable {A : Type} {holds : A → Bool} {items part : List A}

/-- The first piece of a list that is cut stands at its front, and each of the others somewhere
behind. -/
theorem infix_of_splitOnP_eq_cons {first : List A} {others : List (List A)}
    (cut : items.splitOnP holds = first :: others) :
    first <+: items ∧ ∀ part ∈ others, part <:+: items := by
  induction items generalizing first others with
  | nil =>
      rw [List.splitOnP_nil] at cut
      obtain ⟨rfl, rfl⟩ := List.cons.inj cut
      exact ⟨List.prefix_refl [], fun _ member => absurd member List.not_mem_nil⟩
  | cons item rest ih =>
      obtain ⟨head, tail, parts⟩ := List.exists_cons_of_ne_nil (List.splitOnP_ne_nil holds rest)
      obtain ⟨front, behind⟩ := ih parts
      rw [List.splitOnP_cons_eq_if_modifyHead, parts] at cut
      split at cut
      · obtain ⟨rfl, rfl⟩ := List.cons.inj cut
        refine ⟨List.nil_prefix, fun part member => ?_⟩
        rcases List.mem_cons.mp member with rfl | member
        · exact List.infix_cons front.isInfix
        · exact List.infix_cons (behind part member)
      · rw [List.modifyHead_cons] at cut
        obtain ⟨rfl, rfl⟩ := List.cons.inj cut
        exact ⟨List.cons_prefix_cons.mpr ⟨rfl, front⟩, fun part member =>
          List.infix_cons (behind part member)⟩

/-- A part of a split stands in the list as a whole. -/
theorem infix_of_mem_splitOnP (member : part ∈ items.splitOnP holds) : part <:+: items := by
  obtain ⟨first, others, cut⟩ := List.exists_cons_of_ne_nil (List.splitOnP_ne_nil holds items)
  obtain ⟨front, behind⟩ := infix_of_splitOnP_eq_cons cut
  rw [cut] at member
  rcases List.mem_cons.mp member with rfl | member
  · exact front.isInfix
  · exact behind part member

/-- No piece holds an item that the list is cut at. -/
theorem holds_eq_false_of_mem_splitOnP (member : part ∈ items.splitOnP holds) :
    ∀ item ∈ part, holds item = false := by
  induction items generalizing part with
  | nil =>
      rw [List.splitOnP_nil, List.mem_singleton] at member
      simp [member]
  | cons item rest ih =>
      rw [List.splitOnP_cons_eq_if_modifyHead] at member
      split at member
      · rcases List.mem_cons.mp member with rfl | member
        · simp
        · exact ih member
      · next kept =>
          obtain ⟨first, others, parts⟩ :=
            List.exists_cons_of_ne_nil (List.splitOnP_ne_nil holds rest)
          rw [parts, List.modifyHead_cons] at member
          rcases List.mem_cons.mp member with rfl | member
          · intro other inside
            rcases List.mem_cons.mp inside with rfl | inside
            · exact Bool.eq_false_iff.mpr kept
            · exact ih (parts ▸ List.mem_cons_self) other inside
          · exact ih (parts ▸ List.mem_cons_of_mem first member)

end Pieces

/-- A span is inside a source if it is not empty and each of its ends stands between two characters
of the source or at one of its ends. -/
structure Span.Inside (span : Span) (source : String) : Prop where
  filled : span.start < span.stop
  opens : String.Pos.Raw.IsValid source ⟨span.start⟩
  closes : String.Pos.Raw.IsValid source ⟨span.stop⟩

/-- A span is within another one if it nowhere sticks out of it. -/
def Span.Within (inner outer : Span) : Prop := outer.start ≤ inner.start ∧ inner.stop ≤ outer.stop

/-- The size of what stands in front is a place between two characters. -/
theorem Text.isValid_byteCount {source : String} {before after : List Char}
    (joined : source.toList = before ++ after) :
    String.Pos.Raw.IsValid source ⟨byteCount before⟩ := by
  refine String.Pos.Raw.isValid_iff_exists_append.mpr
    ⟨String.ofList before, String.ofList after, ?_, ?_⟩
  · rw [← String.ofList_append, ← joined, String.ofList_toList]
  · rw [byteCount_eq_utf8ByteSize_ofList]
    rfl

namespace Span

@[simp] theorem start_union (first second : Span) :
    (first.union second).start = min first.start second.start := rfl

@[simp] theorem stop_union (first second : Span) :
    (first.union second).stop = max first.stop second.stop := rfl

/-- The union of two spans within a source is within the source. -/
theorem Inside.union {first second : Span} {source : String} (inside : first.Inside source)
    (other : second.Inside source) : (first.union second).Inside source where
  filled := by
    have := inside.filled
    simp only [start_union, stop_union]
    omega
  opens := by
    rw [start_union]
    rcases Nat.le_total first.start second.start with earlier | later
    · rw [Nat.min_eq_left earlier]
      exact inside.opens
    · rw [Nat.min_eq_right later]
      exact other.opens
  closes := by
    rw [stop_union]
    rcases Nat.le_total first.stop second.stop with earlier | later
    · rw [Nat.max_eq_right earlier]
      exact other.closes
    · rw [Nat.max_eq_left later]
      exact inside.closes

end Span

namespace Token

variable {source : String} {tokens : List Token}

/-- The tokens of a source tile it. -/
theorem tiles_of_tokenize (cut : tokenize source = .ok tokens) : Tiles [] source.toList tokens := by
  obtain ⟨ended, rfl⟩ := tokenize_eq_ok_iff.mp cut
  obtain ⟨lexed, tiled⟩ := Lexeme.cut_of_ended ended
  have blank : Gap [] (String.ofList []) false := .blank (by simp)
  have tiles := @tiles_ofLexemes [] [] [] false _ lexed blank (by simp)
  rw [List.nil_append, tiled] at tiles
  exact tiles

/-- The tokens of a source have their spans within it. -/
theorem inside_of_tokenize (cut : tokenize source = .ok tokens) :
    ∀ token ∈ tokens, token.span.Inside source := by
  intro token member
  have tiles := tiles_of_tokenize cut
  obtain ⟨body, ⟨before, after, joined, starts, stops⟩, _⟩ := tiles.written token member
  refine ⟨tiles.filled token member, ?_, ?_⟩
  · rw [← starts]
    rw [List.nil_append, List.append_assoc] at joined
    exact Text.isValid_byteCount joined
  · rw [← stops]
    exact Text.isValid_byteCount joined

end Token

namespace Line

variable {line : Line} {source : String} {tokens : List Token}

/-- The tokens of a line follow one another, and none of them ends it. -/
theorem infix_of_mem_split (member : line ∈ split tokens) : line <:+: tokens :=
  infix_of_mem_splitOnP (List.mem_filter.mp member).1

/-- No line has an unquoted newline. -/
theorem not_isLineBreak_of_mem_split (member : line ∈ split tokens) :
    ∀ token ∈ line, token.isLineBreak = false :=
  holds_eq_false_of_mem_splitOnP (List.mem_filter.mp member).1

/-- The tokens of a line keep their order. -/
theorem sublist_of_mem_split (member : line ∈ split tokens) : line.Sublist tokens :=
  (infix_of_mem_split member).sublist

/-- A line of a source is one of those that its tokens are cut into. -/
def IsLineOf (line : Line) (source : String) : Prop :=
  ∃ tokens, tokenize source = .ok tokens ∧ line ∈ split tokens

/-- The span of a line is the union of its first and its last span. -/
theorem span_cons (first : Token) (rest : List Token) :
    span (first :: rest) =
      first.span.union ((first :: rest).getLast (List.cons_ne_nil first rest)).span := by
  rw [span, List.head?_cons, List.getLast?_eq_some_getLast (List.cons_ne_nil _ _)]

/-- The tokens of a line have their spans within the source. -/
theorem IsLineOf.inside_of_mem (part : IsLineOf line source) {token : Token}
    (member : token ∈ line) : token.span.Inside source := by
  obtain ⟨tokens, cut, found⟩ := part
  exact Token.inside_of_tokenize cut token ((sublist_of_mem_split found).subset member)

/-- A line of a source is not empty. -/
theorem IsLineOf.ne_nil (part : IsLineOf line source) : line ≠ [] := by
  obtain ⟨tokens, cut, found⟩ := part
  exact ne_nil_of_mem_split found

/-- A line of a source has its span within the source. -/
theorem IsLineOf.inside (part : IsLineOf line source) : (span line).Inside source := by
  obtain ⟨first, rest, rfl⟩ := List.exists_cons_of_ne_nil part.ne_nil
  rw [span_cons]
  exact (part.inside_of_mem List.mem_cons_self).union (part.inside_of_mem (List.getLast_mem _))

/-- The span of a line reaches over all of its tokens. -/
theorem IsLineOf.within (part : IsLineOf line source) {token : Token} (member : token ∈ line) :
    token.span.Within (span line) := by
  obtain ⟨first, rest, rfl⟩ := List.exists_cons_of_ne_nil part.ne_nil
  obtain ⟨tokens, cut, found⟩ := part
  have ordered := (Token.tiles_of_tokenize cut).ordered.sublist (sublist_of_mem_split found)
  have := token.span.ordered
  rw [span_cons, Span.Within, Span.start_union, Span.stop_union]
  constructor
  · rcases List.mem_cons.mp member with rfl | behind
    · omega
    · have later := (List.pairwise_cons.mp ordered).1 token behind
      have := first.span.ordered
      omega
  · generalize final : (first :: rest).getLast (List.cons_ne_nil _ _) = last
    have parts := List.dropLast_concat_getLast (List.cons_ne_nil first rest)
    rw [final] at parts
    rw [← parts] at member ordered
    rcases List.mem_append.mp member with earlier | same
    · have before := (List.pairwise_append.mp ordered).2.2 token earlier last (by simp)
      have := last.span.ordered
      omega
    · rw [List.mem_singleton.mp same]
      omega

end Line

end Lifeline
