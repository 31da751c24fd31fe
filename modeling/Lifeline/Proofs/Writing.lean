import Lifeline.Proofs.Lexemes
import Lifeline.Statement.Reading

/-! An entry is written as one line, with every name, label and title in double quotes. -/

namespace Lifeline

/-- A quoted text has a backslash in front of each double quote and each backslash. -/
def quote (text : String) : String :=
  "\x22" ++ String.ofList (Quoted.escape '\x22' text.toList) ++ "\x22"

/-- Names are separated by commas. -/
def quoteAll : List String → String
  | [] => ""
  | first :: rest => quote first ++ String.join (rest.map fun name => ", " ++ quote name)

/-- An arrow without a head has an operator that is not read back. -/
def Arrow.operator : Arrow → String
  | ⟨.solid, false, true⟩ => "->"
  | ⟨.solid, true, false⟩ => "<-"
  | ⟨.solid, true, true⟩ => "<->"
  | ⟨.dash, false, true⟩ => "-->"
  | ⟨.dash, true, false⟩ => "<--"
  | ⟨.dash, true, true⟩ => "<-->"
  | ⟨.solid, false, false⟩ => "-"
  | ⟨.dash, false, false⟩ => "--"

/-- A flag stands directly in front of the name. -/
def Mention.source (mention : Mention) : String :=
  mention.flag.elim "" Flag.sign ++ quote mention.name

def NotePosition.source : NotePosition → String
  | .left => "left of"
  | .right => "right of"
  | .over => "over"
  | .between => "between"

/-- The names of a note stand behind its position, if there are any. -/
def noteSource (position : NotePosition) : List String → String
  | [] => position.source
  | names => position.source ++ " " ++ quoteAll names

/-- These words stand in front of the target of a jump. -/
def jumpWords : String := "simultaneously with "

namespace Statement

def source : Statement → String
  | .define mentions => "define " ++ quoteAll (mentions.map Mention.name)
  | .enter mentions _ => "begin " ++ quoteAll (mentions.map Mention.name)
  | .leave mentions _ => "end " ++ quoteAll (mentions.map Mention.name)
  | .message sender receiver arrow label =>
      sender.source ++ " " ++ arrow.operator ++ " " ++ receiver.source ++ ": " ++ quote label
  | .note position style mentions label =>
      style.keyword ++ " " ++ noteSource position (mentions.map Mention.name) ++ ": " ++ quote label
  | .mark name => quote name ++ ":"
  | .jump target => jumpWords ++ quote target ++ ":"
  | .openBlock mode label => mode.keyword ++ ": " ++ quote label
  | .splitBlock mode label => mode.keyword ++ ": " ++ quote label
  | .closeBlock => "end"

end Statement

def Entry.source : Entry → String
  | .title text => "title " ++ quote text
  | .terminators mode => "terminators " ++ mode.name
  | .statement body => body.source

/-- Every entry has a line of its own. -/
def sourceOf (entries : List Entry) : String :=
  String.join (entries.map fun entry => entry.source ++ "\n")

/-- These texts mean something wherever they stand, between quotes as well. -/
def signs : List String := [":", ",", "+", "-", "->", "<-", "<->", "-->", "<--", "<-->"]

/-- A name is not empty and is no sign. -/
def IsName (name : String) : Prop := name ≠ "" ∧ name ∉ signs

/-- A name is none of the signs. -/
theorem IsName.ne_sign {name sign : String} (proper : IsName name) (listed : sign ∈ signs) :
    name ≠ sign := by
  rintro rfl
  exact proper.2 listed

/-- A name that stands first on its line must not be a keyword either. -/
def IsLeadingName (name : String) : Prop := IsName name ∧ Keyword.ofWord? name = none

/-- A listed participant has no flag. -/
def Mention.IsListed (mention : Mention) : Prop := mention.flag = none ∧ IsName mention.name

/-- These are the positions that a note of a style can have, with the numbers of its names. -/
def NoteStyle.Allows : NoteStyle → NotePosition → Nat → Prop
  | .note, .between, count => 2 ≤ count
  | .note, .over, _ => True
  | .note, .left, _ => True
  | .note, .right, _ => True
  | .text, .left, _ => True
  | .text, .right, _ => True
  | .state, .over, count => count = 1
  | _, _, _ => False

/-- Labels and targets are arbitrary; names, modes and flags must be such that the form of the
statement has a place for them. -/
def Statement.Writable : Statement → Prop
  | .define mentions => mentions ≠ [] ∧ ∀ mention ∈ mentions, mention.IsListed
  | .enter mentions mode =>
      mode = .box ∧ mentions ≠ [] ∧ ∀ mention ∈ mentions, mention.IsListed
  | .leave mentions mode =>
      mode = .cross ∧ mentions ≠ [] ∧ ∀ mention ∈ mentions, mention.IsListed
  | .message sender receiver arrow _ =>
      IsName sender.name ∧ (sender.flag = none → IsLeadingName sender.name) ∧
        IsName receiver.name ∧ (arrow.left = true ∨ arrow.right = true)
  | .note position style mentions _ =>
      style.Allows position mentions.length ∧ ∀ mention ∈ mentions, mention.IsListed
  | .mark name => IsLeadingName name
  | .jump _ => True
  | .openBlock mode _ => mode = .alternative ∨ mode = .loop
  | .splitBlock mode _ => mode = .otherwise
  | .closeBlock => True

def Entry.Writable : Entry → Prop
  | .title _ => True
  | .terminators _ => True
  | .statement body => body.Writable

namespace Lexeme

def gap : Lexeme := .blank " ".toList

def plain (text : String) : Lexeme := .word text.toList

/-- A text is quoted in double quotes. -/
def quoted (text : String) : Lexeme := .quotation '\x22' (Quoted.escape '\x22' text.toList)

/-- Names are separated by commas. -/
def listing : List String → List Lexeme
  | [] => []
  | first :: rest => quoted first :: rest.flatMap fun name => [.comma, gap, quoted name]

end Lexeme

def Mention.lexemes (mention : Mention) : List Lexeme :=
  mention.flag.elim [] (fun flag => [.symbols flag.sign.toList]) ++ [.quoted mention.name]

def NotePosition.lexemes : NotePosition → List Lexeme
  | .left => [.plain "left", .gap, .plain "of"]
  | .right => [.plain "right", .gap, .plain "of"]
  | .over => [.plain "over"]
  | .between => [.plain "between"]

def noteLexemes (position : NotePosition) : List String → List Lexeme
  | [] => position.lexemes
  | names => position.lexemes ++ .gap :: Lexeme.listing names

/-- These are the lexemes of a statement as it is written. -/
def Statement.lexemes : Statement → List Lexeme
  | .define mentions => .plain "define" :: .gap :: Lexeme.listing (mentions.map Mention.name)
  | .enter mentions _ => .plain "begin" :: .gap :: Lexeme.listing (mentions.map Mention.name)
  | .leave mentions _ => .plain "end" :: .gap :: Lexeme.listing (mentions.map Mention.name)
  | .message sender receiver arrow label =>
      sender.lexemes ++ .gap :: .symbols arrow.operator.toList :: .gap ::
        (receiver.lexemes ++ [.colon, .gap, .quoted label])
  | .note position style mentions label =>
      .plain style.keyword :: .gap :: (noteLexemes position (mentions.map Mention.name) ++
        [.colon, .gap, .quoted label])
  | .mark name => [.quoted name, .colon]
  | .jump target =>
      [.plain "simultaneously", .gap, .plain "with", .gap, .quoted target, .colon]
  | .openBlock mode label => [.plain mode.keyword, .colon, .gap, .quoted label]
  | .splitBlock mode label => [.plain mode.keyword, .colon, .gap, .quoted label]
  | .closeBlock => [.plain "end"]

def Entry.lexemes : Entry → List Lexeme
  | .title text => [.plain "title", .gap, .quoted text]
  | .terminators mode => [.plain "terminators", .gap, .plain mode.name]
  | .statement body => body.lexemes

section Texts

open Lexeme

@[simp] theorem text_gap : gap.text = " ".toList := rfl

@[simp] theorem text_comma : comma.text = ",".toList := rfl

@[simp] theorem text_colon : colon.text = ":".toList := rfl

@[simp] theorem text_symbols (run : List Char) : (symbols run).text = run := rfl

@[simp] theorem text_plain (word : String) : (plain word).text = word.toList := rfl

@[simp] theorem text_quoted (text : String) : (quoted text).text = (quote text).toList := by
  simp [quoted, Lexeme.text, quote]

@[simp] theorem text_listing (names : List String) :
    (listing names).flatMap Lexeme.text = (quoteAll names).toList := by
  cases names with
  | nil => rfl
  | cons first rest =>
      simp [listing, quoteAll, String.toList_join, List.flatMap_assoc, List.flatMap_map]

@[simp] theorem Mention.text_lexemes (mention : Mention) :
    mention.lexemes.flatMap Lexeme.text = mention.source.toList := by
  cases flagged : mention.flag <;> simp [lexemes, source, flagged]

@[simp] theorem text_noteLexemes (position : NotePosition) (names : List String) :
    (noteLexemes position names).flatMap Lexeme.text = (noteSource position names).toList := by
  have placed : position.lexemes.flatMap Lexeme.text = position.source.toList := by
    cases position <;> rfl
  cases names with
  | nil => exact placed
  | cons first rest => simp [noteLexemes, noteSource, placed]

/-- The lexemes of a statement are written as its source. -/
theorem Statement.text_lexemes (statement : Statement) :
    statement.lexemes.flatMap Lexeme.text = statement.source.toList := by
  cases statement <;> simp [lexemes, source, jumpWords]

/-- The lexemes of an entry are written as its source. -/
theorem Entry.text_lexemes (entry : Entry) :
    entry.lexemes.flatMap Lexeme.text = entry.source.toList := by
  cases entry with
  | statement body => exact body.text_lexemes
  | _ => simp [lexemes, source]

end Texts

section Cuts

open Lexeme

variable {others : List Lexeme} {rest : List Char}

@[simp] theorem stops_cons {lexeme : Lexeme} {character : Char} :
    lexeme.Stops (character :: rest) ↔ lexeme.continues character = false := by
  simp [Stops]

/-- Small letters make up a word. -/
theorem formed_plain {word : String} (lower : word.toList ≠ [] ∧ word.toList.all Char.isLower) :
    (plain word).Formed := by
  have letter (character : Char) (member : character ∈ word.toList) :
      isWordCharacter character = true ∧ character ≠ '#' ∧ Quoted.isMark character = false := by
    have small : character.isLower = true := List.all_eq_true.mp lower.2 character member
    have differs (other : Char) (large : other.isLower = false) : character ≠ other := by
      rintro rfl
      simp [small] at large
    simp [isWordCharacter, isBlank, isSymbol, Quoted.isMark, differs]
  exact ⟨lower.1, fun character member => (letter character member).1,
    fun character first => (letter character (List.mem_of_mem_head? first)).2⟩

/-- A run of signs is one lexeme. -/
theorem formed_symbols {run : List Char} (signs : run ≠ [] ∧ run.all isSymbol) :
    (symbols run).Formed :=
  ⟨signs.1, List.all_eq_true.mp signs.2⟩

/-- A lexeme stops in front of a text that starts with a character it does not go on with. -/
theorem stops_of_start {lexeme : Lexeme} {text : List Char} {next : Char}
    (start : text = next :: rest) (ends : lexeme.continues next = false) : lexeme.Stops text := by
  rw [start, stops_cons]
  exact ends

@[simp] theorem cut_nil : Cut [] rest := trivial

@[simp] theorem cut_quoted_cons {text : String} :
    Cut (quoted text :: others) rest ↔ Cut others rest := by
  have formed : (quoted text).Formed := ⟨rfl, _, Quoted.spells_escape rfl _⟩
  exact ⟨fun cut => cut.2.2, fun cut => ⟨formed, fun _ _ => rfl, cut⟩⟩

@[simp] theorem cut_comma_cons : Cut (comma :: others) rest ↔ Cut others rest :=
  ⟨fun cut => cut.2.2, fun cut => ⟨trivial, fun _ _ => rfl, cut⟩⟩

@[simp] theorem cut_colon_cons : Cut (colon :: others) rest ↔ Cut others rest :=
  ⟨fun cut => cut.2.2, fun cut => ⟨trivial, fun _ _ => rfl, cut⟩⟩

@[simp] theorem cut_gap_cons :
    Cut (gap :: others) rest ↔ gap.Stops (others.flatMap Lexeme.text ++ rest) ∧ Cut others rest := by
  have formed : gap.Formed := ⟨by decide, by simp [isBlank]⟩
  exact ⟨And.right, fun cut => ⟨formed, cut⟩⟩

@[simp] theorem stops_gap_quote (text : String) : gap.Stops ((quote text).toList ++ rest) := by
  simp [quote, gap, continues, isBlank]

theorem stops_gap_quoteAll (names : List String) (stops : gap.Stops rest) :
    gap.Stops ((quoteAll names).toList ++ rest) := by
  cases names with
  | nil => exact stops
  | cons first more => simp [quoteAll]

theorem stops_gap_source (mention : Mention) : gap.Stops (mention.source.toList ++ rest) := by
  cases flagged : mention.flag with
  | none => simp [Mention.source, flagged]
  | some flag => cases flag <;> simp [Mention.source, flagged, Flag.sign, gap, continues, isBlank]

/-- Names between double quotes are cut apart, whatever follows. -/
theorem cut_listing (names : List String) (rest : List Char) : Cut (listing names) rest := by
  cases names with
  | nil => trivial
  | cons first more =>
      rw [listing, cut_quoted_cons]
      induction more with
      | nil => trivial
      | cons name more ih => simp [ih]

/-- A name with its sign is cut in two. -/
theorem Mention.cut_lexemes (mention : Mention) (rest : List Char) : Cut mention.lexemes rest := by
  have alone : Cut [quoted mention.name] rest := cut_quoted_cons.mpr trivial
  cases flagged : mention.flag with
  | none => simp [lexemes, flagged]
  | some flag =>
      have formed : (symbols flag.sign.toList).Formed := by
        cases flag <;> exact formed_symbols (by decide)
      rw [lexemes, flagged]
      exact ⟨formed, stops_of_start rfl rfl, alone⟩

/-- A word stops in front of a blank, a colon and the end of its line. -/
theorem cut_plain_cons {word : String} {next : Char} {text : List Char}
    (formed : (plain word).Formed) (start : others.flatMap Lexeme.text ++ rest = next :: text)
    (ends : isWordCharacter next = false) (cut : Cut others rest) :
    Cut (plain word :: others) rest := by
  exact ⟨formed, stops_of_start start ends, cut⟩

/-- A word in front of a list stops, and so does the gap between them. -/
theorem cut_plain_listing {word : String} (formed : (plain word).Formed) (names : List String)
    (rest : List Char) : Cut (plain word :: gap :: listing names) ('\n' :: rest) := by
  refine cut_plain_cons formed rfl (by decide) (cut_gap_cons.mpr ⟨?_, cut_listing names _⟩)
  rw [text_listing]
  exact stops_gap_quoteAll names (stops_of_start rfl rfl)

/-- The words of a position are cut apart. -/
theorem NotePosition.cut_lexemes (position : NotePosition) {next : Char}
    (ends : isWordCharacter next = false) (rest : List Char) :
    Cut position.lexemes (next :: rest) := by
  have last {word : String} (formed : (plain word).Formed) : Cut [plain word] (next :: rest) :=
    cut_plain_cons formed rfl ends trivial
  have both {word : String} (formed : (plain word).Formed) :
      Cut [plain word, gap, plain "of"] (next :: rest) :=
    cut_plain_cons formed rfl (by decide)
      (cut_gap_cons.mpr ⟨stops_of_start rfl rfl, last (formed_plain (by decide))⟩)
  cases position with
  | left => exact both (formed_plain (by decide))
  | right => exact both (formed_plain (by decide))
  | _ => exact last (formed_plain (by decide))

theorem cut_noteLexemes (position : NotePosition) (names : List String) (rest : List Char) :
    Cut (noteLexemes position names) (':' :: rest) := by
  cases names with
  | nil => exact position.cut_lexemes (by decide) rest
  | cons first more =>
      refine cut_append.mpr ⟨position.cut_lexemes (by decide) _, cut_gap_cons.mpr ⟨?_, ?_⟩⟩
      · rw [text_listing]
        exact stops_gap_quoteAll _ (stops_of_start rfl rfl)
      · exact cut_listing _ _

/-- The label of a line stands behind a colon. -/
theorem cut_label (label : String) (rest : List Char) : Cut [colon, gap, quoted label] rest := by
  simp

theorem stops_gap_noteSource (position : NotePosition) (names : List String) (rest : List Char) :
    gap.Stops ((noteSource position names).toList ++ rest) := by
  cases names <;> cases position <;>
    simp [noteSource, NotePosition.source, gap, continues, isBlank]

/-- The lexemes of a statement cut its line. -/
theorem Statement.cut_lexemes (statement : Statement) (rest : List Char) :
    Cut statement.lexemes ('\n' :: rest) := by
  have block (mode : BlockMode) (label : String) :
      Cut [plain mode.keyword, colon, gap, quoted label] ('\n' :: rest) := by
    have formed : (plain mode.keyword).Formed := by
      cases mode <;> exact formed_plain (by decide)
    exact cut_plain_cons formed rfl (by decide) (cut_label label _)
  cases statement with
  | define mentions => exact cut_plain_listing (formed_plain (by decide)) _ rest
  | enter mentions mode => exact cut_plain_listing (formed_plain (by decide)) _ rest
  | leave mentions mode => exact cut_plain_listing (formed_plain (by decide)) _ rest
  | message sender receiver arrow label =>
      have formed : (symbols arrow.operator.toList).Formed := by
        obtain ⟨style, left, right⟩ := arrow
        cases style <;> cases left <;> cases right <;> exact formed_symbols (by decide)
      have behind : Cut (receiver.lexemes ++ [colon, gap, quoted label]) ('\n' :: rest) :=
        cut_append.mpr ⟨receiver.cut_lexemes _, cut_label label _⟩
      refine cut_append.mpr ⟨sender.cut_lexemes _, cut_gap_cons.mpr ⟨?_, formed, ?_, ?_⟩⟩
      · obtain ⟨style, left, right⟩ := arrow
        cases style <;> cases left <;> cases right <;> exact stops_of_start rfl rfl
      · exact stops_of_start rfl rfl
      · refine cut_gap_cons.mpr ⟨?_, behind⟩
        rw [List.flatMap_append, Mention.text_lexemes, List.append_assoc]
        exact stops_gap_source receiver
  | note position style mentions label =>
      have formed : (plain style.keyword).Formed := by
        cases style <;> exact formed_plain (by decide)
      have behind : Cut (noteLexemes position (mentions.map Mention.name) ++
          [colon, gap, quoted label]) ('\n' :: rest) :=
        cut_append.mpr ⟨cut_noteLexemes position _ _, cut_label label _⟩
      refine cut_plain_cons formed rfl (by decide) (cut_gap_cons.mpr ⟨?_, behind⟩)
      rw [List.flatMap_append, text_noteLexemes, List.append_assoc]
      exact stops_gap_noteSource position _ _
  | mark name => simp [lexemes]
  | jump target =>
      refine cut_plain_cons (formed_plain (by decide)) rfl (by decide)
        (cut_gap_cons.mpr ⟨stops_of_start rfl rfl, ?_⟩)
      exact cut_plain_cons (formed_plain (by decide)) rfl (by decide) (by simp)
  | openBlock mode label => exact block mode label
  | splitBlock mode label => exact block mode label
  | closeBlock => exact cut_plain_cons (formed_plain (by decide)) rfl (by decide) trivial

/-- The line of an entry is cut into its lexemes. -/
theorem Entry.cut_lexemes (entry : Entry) (rest : List Char) :
    Cut entry.lexemes ('\n' :: rest) := by
  cases entry with
  | title text => exact cut_plain_cons (formed_plain (by decide)) rfl (by decide) (by simp)
  | terminators mode =>
      have formed : (plain mode.name).Formed := by
        cases mode <;> exact formed_plain (by decide)
      have stops : gap.Stops ([plain mode.name].flatMap Lexeme.text ++ '\n' :: rest) := by
        cases mode <;> exact stops_of_start rfl rfl
      exact cut_plain_cons (formed_plain (by decide)) rfl (by decide)
        (cut_gap_cons.mpr ⟨stops, cut_plain_cons formed rfl (by decide) trivial⟩)
  | statement body => exact body.cut_lexemes rest

end Cuts

end Lifeline
