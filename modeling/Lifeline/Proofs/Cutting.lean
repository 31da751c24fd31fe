import Lifeline.Proofs.Places
import Lifeline.Proofs.Reading

/-! Lines are the only way to part tokens exactly at their unquoted newlines. -/

namespace Lifeline.Line

/-- This is the number of the line that holds a place, where places are counted through all lines.
-/
def numberAt : List Line → Nat → Nat
  | [], _ => 0
  | line :: rest, place =>
      if place < line.length then 0 else numberAt rest (place - line.length) + 1

/-- These tokens stand in the lines. -/
def kept (tokens : List Token) : List Token := tokens.filter fun token => !token.isLineBreak

/-- These are the properties of the lines that tokens are cut into. The place of a token in the
lines is the number of those in front of it that are kept. Two neighbours share a line exactly when
no unquoted newline stood between them. -/
structure CutFrom (tokens : List Token) (lines : List Line) : Prop where
  filled : ∀ line ∈ lines, line ≠ []
  unbroken : ∀ line ∈ lines, ∀ token ∈ line, token.isLineBreak = false
  joined : lines.flatten = kept tokens
  parted : ∀ before first between second after,
    tokens = before ++ first :: (between ++ second :: after) →
    first.isLineBreak = false → second.isLineBreak = false →
    (∀ token ∈ between, token.isLineBreak = true) →
    (numberAt lines (kept before).length = numberAt lines ((kept before).length + 1) ↔
      between = [])

section Kept

variable {token : Token}

theorem kept_cons_of_break (rest : List Token) (breaks : token.isLineBreak = true) :
    kept (token :: rest) = kept rest := by
  rw [kept, List.filter_cons_of_neg (by simp [breaks]), kept]

theorem kept_cons_of_plain (rest : List Token) (plain : token.isLineBreak = false) :
    kept (token :: rest) = token :: kept rest := by
  rw [kept, List.filter_cons_of_pos (by simp [plain]), kept]

/-- Nothing is kept of unquoted newlines. -/
theorem kept_eq_nil {tokens : List Token} (breaks : ∀ token ∈ tokens, token.isLineBreak = true) :
    kept tokens = [] := by
  rw [kept, List.filter_eq_nil_iff]
  intro token member
  simp [breaks token member]

/-- The first token of the lines has only newlines in front of it. -/
theorem exists_first {tokens : List Token} (some : kept tokens ≠ []) :
    ∃ before first after, tokens = before ++ first :: after ∧ first.isLineBreak = false ∧
      ∀ token ∈ before, token.isLineBreak = true := by
  induction tokens with
  | nil => exact absurd rfl some
  | cons token rest ih =>
      cases breaks : token.isLineBreak with
      | false => exact ⟨[], token, rest, rfl, breaks, by simp⟩
      | true =>
          rw [kept_cons_of_break rest breaks] at some
          obtain ⟨before, first, after, rfl, plain, skipped⟩ := ih some
          exact ⟨token :: before, first, after, rfl, plain, by simpa [breaks] using skipped⟩

/-- Tokens that follow one another in the lines have only newlines between them. -/
theorem exists_neighbours {tokens : List Token} {place : Nat}
    (within : place + 1 < (kept tokens).length) :
    ∃ before first between second after,
      tokens = before ++ first :: (between ++ second :: after) ∧
      first.isLineBreak = false ∧ second.isLineBreak = false ∧
      (∀ token ∈ between, token.isLineBreak = true) ∧ (kept before).length = place := by
  induction tokens generalizing place with
  | nil => simp [kept] at within
  | cons token rest ih =>
      cases breaks : token.isLineBreak with
      | true =>
          rw [kept_cons_of_break rest breaks] at within
          obtain ⟨before, first, between, second, after, rfl, plain, also, skipped, counted⟩ :=
            ih within
          exact ⟨token :: before, first, between, second, after, rfl, plain, also, skipped,
            by rw [kept_cons_of_break before breaks, counted]⟩
      | false =>
          rw [kept_cons_of_plain rest breaks, List.length_cons] at within
          cases place with
          | zero =>
              have some : kept rest ≠ [] := List.ne_nil_of_length_pos (by omega)
              obtain ⟨between, second, after, rfl, also, skipped⟩ := exists_first some
              exact ⟨[], token, between, second, after, rfl, breaks, also, skipped, rfl⟩
          | succ place =>
              obtain ⟨before, first, between, second, after, rfl, plain, also, skipped, counted⟩ :=
                ih (Nat.lt_of_succ_lt_succ within)
              exact ⟨token :: before, first, between, second, after, rfl, plain, also, skipped,
                by rw [kept_cons_of_plain before breaks, List.length_cons, counted]⟩

end Kept

section Split

variable {first second : Token} (rest : List Token)

/-- A newline at the start of the tokens is skipped. -/
theorem split_cons_of_break (breaks : first.isLineBreak = true) :
    split (first :: rest) = split rest :=
  split_append_cons [] rest breaks

theorem split_singleton (plain : first.isLineBreak = false) : split [first] = [[first]] := by
  rw [split, List.splitOnP_eq_singleton (by simpa using plain)]
  rfl

/-- A token in front of a newline ends its line. -/
theorem split_cons_break (plain : first.isLineBreak = false) (breaks : second.isLineBreak = true) :
    split (first :: second :: rest) = [first] :: split rest := by
  have apart := split_append_cons [first] rest breaks
  rw [split_singleton plain] at apart
  exact apart

/-- A token in front of another one joins the line of that one. -/
theorem split_cons_cons (plain : first.isLineBreak = false) (also : second.isLineBreak = false) :
    ∃ line others, split (second :: rest) = (second :: line) :: others ∧
      split (first :: second :: rest) = (first :: second :: line) :: others := by
  obtain ⟨line, others, cut⟩ := List.exists_cons_of_ne_nil
    (List.splitOnP_ne_nil Token.isLineBreak rest)
  refine ⟨line, others.filter fun line => line != [], ?_, ?_⟩
  · simp [split, List.splitOnP_cons_eq_if_modifyHead, also, cut]
  · simp [split, List.splitOnP_cons_eq_if_modifyHead, plain, also, cut]

/-- The lines hold exactly the tokens that are kept. -/
theorem flatten_split (tokens : List Token) : (split tokens).flatten = kept tokens := by
  induction tokens with
  | nil => rfl
  | cons first rest ih =>
      cases breaks : first.isLineBreak with
      | true => rw [split_cons_of_break rest breaks, kept_cons_of_break rest breaks, ih]
      | false =>
          rw [kept_cons_of_plain rest breaks, ← ih]
          cases rest with
          | nil => rw [split_singleton breaks]; rfl
          | cons second rest =>
              cases also : second.isLineBreak with
              | true =>
                  rw [split_cons_break rest breaks also, split_cons_of_break rest also]
                  rfl
              | false =>
                  obtain ⟨line, others, alone, together⟩ := split_cons_cons rest breaks also
                  rw [together, alone]
                  rfl

end Split

section Numbers

/-- The places of the first line have the number zero. -/
theorem numberAt_cons_of_lt {line : Line} {place : Nat} (rest : List Line)
    (within : place < line.length) : numberAt (line :: rest) place = 0 := by
  rw [numberAt, if_pos within]

/-- Behind the first line, the numbers are those in the other lines plus one. -/
theorem numberAt_cons_add (line : Line) (rest : List Line) (place : Nat) :
    numberAt (line :: rest) (line.length + place) = numberAt rest place + 1 := by
  rw [numberAt, if_neg (by omega), Nat.add_sub_cancel_left]

/-- One more token at the front of the first line moves all places on by one. -/
theorem numberAt_grow (token : Token) (line : Line) (others : List Line) (place : Nat) :
    numberAt ((token :: line) :: others) (place + 1) = numberAt (line :: others) place := by
  rw [numberAt, numberAt, List.length_cons, Nat.add_sub_add_right]
  simp only [Nat.add_lt_add_iff_right]

/-- The first token shares its line with those in front of the first newline behind it. -/
theorem numberAt_split_cons_eq_zero_iff {first second : Token} (between after : List Token)
    (plain : first.isLineBreak = false) (also : second.isLineBreak = false) :
    numberAt (split (first :: (between ++ second :: after))) ((kept between).length + 1) = 0 ↔
      ∀ token ∈ between, token.isLineBreak = false := by
  induction between generalizing first with
  | nil =>
      obtain ⟨line, others, _, together⟩ := split_cons_cons after plain also
      rw [List.nil_append, together, numberAt_cons_of_lt _ (by simp [kept])]
      simp
  | cons token between ih =>
      rw [List.cons_append]
      cases breaks : token.isLineBreak with
      | true =>
          rw [split_cons_break _ plain breaks, kept_cons_of_break between breaks, numberAt_grow]
          simp [numberAt, breaks]
      | false =>
          obtain ⟨line, others, alone, together⟩ := split_cons_cons (between ++ second :: after)
            plain breaks
          rw [together, kept_cons_of_plain between breaks, List.length_cons, numberAt_grow, ← alone,
            ih breaks]
          simp [breaks]

/-- A token in front of all others leaves two of them in one line or in two. -/
theorem numberAt_split_cons_eq_iff {token : Token} (rest : List Token)
    (plain : token.isLineBreak = false) (place other : Nat) :
    numberAt (split (token :: rest)) (place + 1) = numberAt (split (token :: rest)) (other + 1) ↔
      numberAt (split rest) place = numberAt (split rest) other := by
  cases rest with
  | nil =>
      rw [split_singleton plain, numberAt_grow, numberAt_grow]
      simp [numberAt, split]
  | cons next rest =>
      cases breaks : next.isLineBreak with
      | true =>
          rw [split_cons_break rest plain breaks, split_cons_of_break rest breaks, numberAt_grow,
            numberAt_grow]
          simp [numberAt]
      | false =>
          obtain ⟨line, others, alone, together⟩ := split_cons_cons rest plain breaks
          rw [together, numberAt_grow, numberAt_grow, alone]

/-- Two tokens share a line exactly if no newline stands between them. -/
theorem numberAt_split_eq_iff (before between after : List Token) {first second : Token}
    (plain : first.isLineBreak = false) (also : second.isLineBreak = false) :
    numberAt (split (before ++ first :: (between ++ second :: after))) (kept before).length =
        numberAt (split (before ++ first :: (between ++ second :: after)))
          ((kept before).length + ((kept between).length + 1)) ↔
      ∀ token ∈ between, token.isLineBreak = false := by
  induction before with
  | nil =>
      have start : numberAt (split (first :: (between ++ second :: after))) 0 = 0 := by
        cases cut : split (first :: (between ++ second :: after)) with
        | nil => rfl
        | cons line others =>
            have filled : line ≠ [] := ne_nil_of_mem_split (cut ▸ List.mem_cons_self)
            exact numberAt_cons_of_lt others (List.length_pos_iff.mpr filled)
      have shared := numberAt_split_cons_eq_zero_iff between after plain also
      rw [← shared, List.nil_append]
      simp only [kept, List.filter_nil, List.length_nil, Nat.zero_add]
      rw [start, eq_comm]
  | cons token before ih =>
      rw [List.cons_append]
      cases breaks : token.isLineBreak with
      | true => rw [split_cons_of_break _ breaks, kept_cons_of_break before breaks, ih]
      | false =>
          rw [kept_cons_of_plain before breaks, List.length_cons, Nat.add_right_comm,
            numberAt_split_cons_eq_iff _ breaks, ih]

/-- These lines agree on which neighbours share a line. -/
def PartAlike (lines others : List Line) : Prop :=
  ∀ place, place + 1 < lines.flatten.length →
    (numberAt lines place = numberAt lines (place + 1) ↔
      numberAt others place = numberAt others (place + 1))

/-- Behind a common first line, the other lines part alike. -/
theorem PartAlike.tail {line : Line} {rest others : List Line}
    (alike : PartAlike (line :: rest) (line :: others)) : PartAlike rest others := by
  intro place within
  have shifted := alike (line.length + place) (by
    rw [List.flatten_cons, List.length_append]
    omega)
  rw [Nat.add_assoc, numberAt_cons_add, numberAt_cons_add, numberAt_cons_add,
    numberAt_cons_add] at shifted
  simpa only [Nat.add_right_cancel_iff] using shifted

/-- A line ends where lines that agree with it end theirs, or before. -/
theorem PartAlike.length_le {line other : Line} {rest others : List Line}
    (alike : PartAlike (line :: rest) (other :: others)) (filled : line ≠ [])
    (joined : (line :: rest).flatten = (other :: others).flatten) :
    other.length ≤ line.length := by
  by_contra longer
  have some : 0 < line.length := List.length_pos_iff.mpr filled
  have within : line.length < (line :: rest).flatten.length := by
    rw [joined, List.flatten_cons, List.length_append]
    omega
  have here := alike (line.length - 1) (by omega)
  rw [Nat.sub_add_cancel some, numberAt_cons_of_lt rest (by omega),
    numberAt_cons_of_lt others (by omega), numberAt_cons_of_lt others (by omega)] at here
  have next := here.mpr rfl
  have behind := numberAt_cons_add line rest 0
  rw [Nat.add_zero] at behind
  omega

/-- Parting alike goes both ways where the same tokens are parted. -/
theorem PartAlike.symm {lines others : List Line} (alike : PartAlike lines others)
    (joined : lines.flatten = others.flatten) : PartAlike others lines :=
  fun place within => (alike place (joined ▸ within)).symm

/-- Lines without empty ones among them are known from their tokens and from which neighbours share
a line. -/
theorem PartAlike.eq {lines others : List Line} (alike : PartAlike lines others)
    (filled : ∀ line ∈ lines, line ≠ []) (filledToo : ∀ line ∈ others, line ≠ [])
    (joined : lines.flatten = others.flatten) : lines = others := by
  induction lines generalizing others with
  | nil =>
      cases others with
      | nil => rfl
      | cons other others =>
          rw [List.flatten_nil, List.flatten_cons, eq_comm, List.append_eq_nil_iff] at joined
          exact absurd joined.1 (filledToo other List.mem_cons_self)
  | cons line rest ih =>
      cases others with
      | nil =>
          rw [List.flatten_nil, List.flatten_cons, List.append_eq_nil_iff] at joined
          exact absurd joined.1 (filled line List.mem_cons_self)
      | cons other others =>
          have lengths : line.length = other.length := Nat.le_antisymm
            ((alike.symm joined).length_le (filledToo other List.mem_cons_self) joined.symm)
            (alike.length_le (filled line List.mem_cons_self) joined)
          obtain ⟨rfl, joinedRest⟩ := List.append_inj joined lengths
          rw [ih alike.tail (fun line member => filled line (List.mem_cons_of_mem _ member))
            (fun line member => filledToo line (List.mem_cons_of_mem _ member)) joinedRest]

end Numbers

/-- Cutting tokens gives lines that are cut from them. -/
theorem cutFrom_split (tokens : List Token) : CutFrom tokens (split tokens) where
  filled _ member := ne_nil_of_mem_split member
  unbroken _ member := not_isLineBreak_of_mem_split member
  joined := flatten_split tokens
  parted := by
    rintro before first between second after rfl plain also skipped
    have shared := numberAt_split_eq_iff before between after plain also
    rw [kept_eq_nil skipped, List.length_nil, Nat.zero_add] at shared
    rw [shared]
    cases between with
    | nil => simp
    | cons token between => simp [skipped token List.mem_cons_self]

/-- Lines that are cut from the same tokens part alike. -/
theorem CutFrom.partAlike {tokens : List Token} {lines others : List Line}
    (cut : CutFrom tokens lines) (also : CutFrom tokens others) : PartAlike lines others := by
  intro place within
  rw [cut.joined] at within
  obtain ⟨before, first, between, second, after, joined, plain, plainToo, skipped, rfl⟩ :=
    exists_neighbours within
  rw [cut.parted before first between second after joined plain plainToo skipped,
    also.parted before first between second after joined plain plainToo skipped]

/-- Cutting tokens gives the only lines that keep the tokens without the unquoted newlines, are not
empty, and part two neighbours exactly where an unquoted newline stood between them. -/
theorem eq_split_iff_cutFrom (tokens : List Token) (lines : List Line) :
    lines = split tokens ↔ CutFrom tokens lines := by
  constructor
  · rintro rfl
    exact cutFrom_split tokens
  · intro cut
    have found := cutFrom_split tokens
    exact (cut.partAlike found).eq cut.filled found.filled (cut.joined.trans found.joined.symm)

/-- A quoted newline ends no line. -/
example : split [⟨"", "A", false, .origin⟩, ⟨" ", "\n", true, .origin⟩, ⟨"", "\n", false, .origin⟩,
    ⟨"", "B", false, .origin⟩] =
      [[⟨"", "A", false, .origin⟩, ⟨" ", "\n", true, .origin⟩], [⟨"", "B", false, .origin⟩]] := by
  decide

end Lifeline.Line
