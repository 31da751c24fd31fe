import Lifeline.Proofs.Places

/-! Unquoted tokens of a line are joined to the text of the source that they cover. -/

namespace Lifeline

/-- A plain text holds no newline, unless it is one. -/
theorem Text.IsPlain.newline_not_mem {text : List Char} (plain : Text.IsPlain text)
    (other : text ≠ ['\n']) : '\n' ∉ text := by
  rcases plain with one | one | one | ⟨_, all⟩ | ⟨_, all, _⟩
  · exact absurd one other
  · simp [one]
  · simp [one]
  · exact fun member => absurd (all '\n' member) (by decide)
  · exact fun member => absurd (all '\n' member) (by decide)

/-- Without a comment, a gap is the separator of the token behind it and stays in its line. -/
theorem Gap.eq_separator {gap : List Char} {separator : String} (between : Gap gap separator false) :
    gap = separator.toList ∧ '\n' ∉ gap := by
  cases between with
  | blank blanks =>
      refine ⟨String.toList_ofList.symm, fun member => ?_⟩
      exact absurd (blanks '\n' member) (by decide)

namespace Token

/-- A token that is neither quoted nor the end of a line is written as its value, in one line. -/
theorem IsWritten.eq_value {token : Token} {body : List Char} (written : token.IsWritten body)
    (bare : token.quoted = false) (unbroken : token.isLineBreak = false) :
    body = token.value.toList ∧ '\n' ∉ body := by
  rw [IsWritten, if_neg (Bool.eq_false_iff.mp bare)] at written
  obtain ⟨rfl, plain⟩ := written
  refine ⟨rfl, plain.newline_not_mem fun newline => ?_⟩
  have same : token.value = "\n" := String.toList_injective newline
  simp [isLineBreak, bare, same] at unbroken

end Token

namespace Line

/-- This is the text of tokens that stand behind another one. -/
def trail (tokens : List Token) : String :=
  String.join (tokens.map fun token => token.separator ++ token.value)

/-- A token adds its separator and its value to the trail. -/
theorem trail_cons (token : Token) (rest : List Token) :
    trail (token :: rest) = token.separator ++ token.value ++ trail rest := by
  rw [trail, List.map_cons, String.join_cons, trail]

theorem text_cons (first : Token) (rest : List Token) :
    text (first :: rest) = first.value ++ trail rest := rfl

end Line

namespace Token.Tiles

variable {read ahead : List Char} {token : Token} {run others : List Token}

/-- The text in front of some of the tokens counts as read for them. -/
theorem exists_of_append {before : List Token} (tiles : Tiles read ahead (before ++ others)) :
    ∃ passed left, read ++ ahead = passed ++ left ∧ Tiles passed left others := by
  induction before generalizing read ahead with
  | nil => exact ⟨read, ahead, rfl, tiles⟩
  | cons token rest ih =>
      cases tiles with
      | token between line start stop written longest behind =>
          obtain ⟨passed, left, same, tiles⟩ := ih behind
          refine ⟨passed, left, ?_, tiles⟩
          rw [← same]
          simp

/-- A bare token inside of a line stands ahead with its separator and its value. -/
theorem of_bare (tiles : Tiles read ahead (token :: others)) (bare : token.quoted = false)
    (unbroken : token.isLineBreak = false) :
    ∃ left, ahead = token.separator.toList ++ token.value.toList ++ left ∧
      token.span.start = Text.byteCount (read ++ token.separator.toList) ∧
      token.span.stop =
        Text.byteCount (read ++ token.separator.toList ++ token.value.toList) ∧
      '\n' ∉ token.separator.toList ++ token.value.toList ∧
      Tiles (read ++ token.separator.toList ++ token.value.toList) left others := by
  cases tiles with
  | @token _ gap body left commented _ _ between line start stop written longest behind =>
      have uncommented : commented = false := by
        rw [Bool.eq_false_iff]
        intro comment
        rw [line comment] at unbroken
        contradiction
      rw [uncommented] at between
      obtain ⟨rfl, clear⟩ := between.eq_separator
      obtain ⟨rfl, plain⟩ := written.eq_value bare unbroken
      refine ⟨left, rfl, start, stop, ?_, behind⟩
      simp [clear, plain]

/-- Bare tokens of one line stand ahead as their joined text, which goes to the end of the last. -/
theorem exists_trail (tiles : Tiles read ahead (run ++ others))
    (bare : ∀ token ∈ run, token.quoted = false)
    (unbroken : ∀ token ∈ run, token.isLineBreak = false)
    (stop : token.span.stop = Text.byteCount read) :
    ∃ left, ahead = (Line.trail run).toList ++ left ∧
      ((token :: run).getLast (List.cons_ne_nil token run)).span.stop =
        Text.byteCount (read ++ (Line.trail run).toList) ∧
      '\n' ∉ (Line.trail run).toList := by
  induction run generalizing read ahead token with
  | nil => exact ⟨ahead, rfl, by simpa [Line.trail] using stop, by simp [Line.trail]⟩
  | cons next rest ih =>
      obtain ⟨left, rfl, -, ends, clear, behind⟩ :=
        tiles.of_bare (bare next List.mem_cons_self) (unbroken next List.mem_cons_self)
      obtain ⟨beyond, rfl, final, line⟩ := ih behind
        (fun token member => bare token (List.mem_cons_of_mem next member))
        (fun token member => unbroken token (List.mem_cons_of_mem next member)) ends
      rw [Line.trail_cons, String.toList_append, String.toList_append]
      refine ⟨beyond, by simp, ?_, ?_⟩
      · rw [List.getLast_cons_cons, final]
        simp only [List.append_assoc]
      · rw [List.mem_append, not_or]
        exact ⟨clear, line⟩

/-- Bare tokens of one line are joined to what the source has from the first to the last of them. -/
theorem between_text {source : List Char} {before : List Token}
    (tiles : Tiles [] source (before ++ (token :: run) ++ others))
    (bare : ∀ other ∈ token :: run, other.quoted = false)
    (unbroken : ∀ other ∈ token :: run, other.isLineBreak = false) :
    Text.Between source token.span.start
        ((token :: run).getLast (List.cons_ne_nil token run)).span.stop
        (Line.text (token :: run)).toList ∧
      '\n' ∉ (Line.text (token :: run)).toList := by
  rw [List.append_assoc, List.cons_append] at tiles
  obtain ⟨passed, left, same, tiles⟩ := tiles.exists_of_append
  obtain ⟨behind, rfl, start, stop, clear, tiles⟩ :=
    tiles.of_bare (bare token List.mem_cons_self) (unbroken token List.mem_cons_self)
  obtain ⟨after, rfl, final, line⟩ := tiles.exists_trail
    (fun other member => bare other (List.mem_cons_of_mem token member))
    (fun other member => unbroken other (List.mem_cons_of_mem token member)) stop
  rw [Line.text_cons, String.toList_append]
  rw [List.mem_append, not_or] at clear
  refine ⟨⟨passed ++ token.separator.toList, after, ?_, start.symm, ?_⟩, ?_⟩
  · rw [← List.nil_append source, same]
    simp only [List.append_assoc]
  · rw [final, List.append_assoc (_ ++ _)]
  · rw [List.mem_append, not_or]
    exact ⟨clear.2, line⟩

end Token.Tiles

namespace Line

variable {source : String} {tokens : List Token} {line : Line} {first : Token} {rest : List Token}

/-- This holds for each part of a line that has no quoted token. -/
theorem between_text_of_infix (cut : tokenize source = .ok tokens) (member : line ∈ split tokens)
    (part : first :: rest <:+: line) (bare : ∀ token ∈ first :: rest, token.quoted = false) :
    Text.Between source.toList first.span.start
        ((first :: rest).getLast (List.cons_ne_nil first rest)).span.stop
        (text (first :: rest)).toList ∧
      '\n' ∉ (text (first :: rest)).toList := by
  obtain ⟨before, others, rfl⟩ := part.trans (infix_of_mem_split member)
  exact (Token.tiles_of_tokenize cut).between_text bare fun token inside =>
    not_isLineBreak_of_mem_split member token (part.subset inside)

/-- The span of a line goes from the start of its first token to the end of its last. -/
theorem span_eq (cut : tokenize source = .ok tokens) (member : first :: rest ∈ split tokens) :
    (span (first :: rest)).start = first.span.start ∧ (span (first :: rest)).stop =
      ((first :: rest).getLast (List.cons_ne_nil first rest)).span.stop := by
  have ordered := (Token.tiles_of_tokenize cut).ordered.sublist (sublist_of_mem_split member)
  rw [span_cons, Span.start_union, Span.stop_union]
  cases rest with
  | nil => simp
  | cons next more =>
      rw [List.getLast_cons_cons]
      generalize final : (next :: more).getLast (List.cons_ne_nil next more) = last
      have behind : last ∈ next :: more := final ▸ List.getLast_mem _
      have later := (List.pairwise_cons.mp ordered).1 last behind
      have := first.span.ordered
      have := last.span.ordered
      omega

/-- The first and the last token of a range of a line are those at its ends. -/
theorem exists_range {start stop : Nat} (earlier : start < stop) (inside : stop ≤ line.length) :
    ∃ first rest, (line.take stop).drop start = first :: rest ∧
      first = line.get ⟨start, by omega⟩ ∧
      (first :: rest).getLast (List.cons_ne_nil first rest) = line.get ⟨stop - 1, by omega⟩ := by
  have within : start < (line.take stop).length := by
    rw [List.length_take]
    omega
  have range := List.drop_eq_getElem_cons within
  refine ⟨_, _, range, List.getElem_take, ?_⟩
  have final : ((line.take stop).drop start).getLast? = some (line.get ⟨stop - 1, by omega⟩) := by
    have index : start + (stop - start - 1) = stop - 1 := by omega
    rw [List.getLast?_eq_getElem?, List.length_drop, List.length_take, Nat.min_eq_left inside,
      List.getElem?_drop, index, List.getElem?_take_of_lt (by omega),
      List.getElem?_eq_getElem (by omega)]
    rfl
  rw [range, List.getLast?_eq_some_getLast (List.cons_ne_nil _ _)] at final
  exact Option.some.inj final

end Line

/-- On a line of a source, the join of a range of unquoted tokens is the text of the source from the
start of its first token to the end of its last. So the text of a line without quoted tokens is what
the source has under the span of the line, and that holds no newline. -/
theorem join_verbatim {source : String} {tokens : List Token} {line : Line}
    (cut : tokenize source = .ok tokens) (member : line ∈ Line.split tokens) :
    (∀ start stop, (earlier : start < stop) → (inside : stop ≤ line.length) →
      (∀ token ∈ (line.take stop).drop start, token.quoted = false) →
      Text.Between source.toList (line.get ⟨start, by omega⟩).span.start
        (line.get ⟨stop - 1, by omega⟩).span.stop (line.join start stop).toList) ∧
    ((∀ token ∈ line, token.quoted = false) →
      Text.Between source.toList (Line.span line).start (Line.span line).stop
        (Line.text line).toList ∧
      '\n' ∉ (Line.text line).toList) := by
  constructor
  · intro start stop earlier inside bare
    obtain ⟨first, rest, range, opening, closing⟩ := Line.exists_range earlier inside
    have part : first :: rest <:+: line := by
      rw [← range]
      exact (List.drop_suffix start _).isInfix.trans (List.take_prefix stop line).isInfix
    rw [range] at bare
    rw [Line.join, if_pos ⟨earlier.le, inside⟩, range, ← opening, ← closing]
    exact (Line.between_text_of_infix cut member part bare).1
  · intro bare
    obtain ⟨first, rest, rfl⟩ := List.exists_cons_of_ne_nil (Line.ne_nil_of_mem_split member)
    obtain ⟨opening, closing⟩ := Line.span_eq cut member
    rw [opening, closing]
    exact Line.between_text_of_infix cut member (List.infix_refl _) bare

/-- A comment and a quoted name stand beside the texts, and neither reaches into them. -/
theorem join_verbatim_remark :
    ∃ tokens first second, tokenize "title é  \tb # c\n'q' x: y" = .ok tokens ∧
      Line.split tokens = [first, second] ∧
      Text.Between "title é  \tb # c\n'q' x: y".toList 0 12 first.text.toList ∧
      '\n' ∉ first.text.toList ∧
      Text.Between "title é  \tb # c\n'q' x: y".toList 21 25 (second.join 1 4).toList := by
  let first : Line := [⟨"", "title", false, .covering 0 5⟩, ⟨" ", "é", false, .covering 6 2⟩,
    ⟨"  \t", "b", false, .covering 11 1⟩]
  let second : Line := [⟨"", "q", true, .covering 17 3⟩, ⟨" ", "x", false, .covering 21 1⟩,
    ⟨"", ":", false, .covering 22 1⟩, ⟨" ", "y", false, .covering 24 1⟩]
  have cut : tokenize "title é  \tb # c\n'q' x: y" =
      .ok (first ++ ⟨"", "\n", false, .covering 16 1⟩ :: second) := by
    decide +kernel
  have lines : Line.split (first ++ ⟨"", "\n", false, .covering 16 1⟩ :: second) =
      [first, second] := by
    decide +kernel
  have text := (join_verbatim cut (lines ▸ List.mem_cons_self)).2 (by decide)
  have range := (join_verbatim cut (lines ▸ List.mem_cons_of_mem first List.mem_cons_self)).1 1 4
    (by decide) (by decide) (by decide)
  exact ⟨_, first, second, cut, lines, text.1, text.2, range⟩

end Lifeline
