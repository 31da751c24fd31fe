import Lifeline.Proofs.Lexemes

/-! Every text has written forms in either mark that are read back as the text. -/

namespace Lifeline

/-- This content is a value with a backslash in front of each mark and each backslash. A newline is
written as an escape if its place in the value is chosen, and stands for itself otherwise. -/
def Quoted.write (mark : Char) (chosen : Nat → Bool) : List Char → List Char
  | [] => []
  | character :: rest =>
      (if character = '\n' ∧ chosen 0 = true then ['\\', 'n']
        else if character = mark ∨ character = '\\' then ['\\', character]
        else [character]) ++ write mark (fun place => chosen (place + 1)) rest

/-- Every written form of a value spells the value. -/
theorem Quoted.spells_write {mark : Char} (quotes : isMark mark = true) (chosen : Nat → Bool)
    (value : List Char) : Spells mark (write mark chosen value) value := by
  induction value generalizing chosen with
  | nil => exact .nil
  | cons character rest ih =>
      rw [write]
      split
      · next escaped =>
          rw [escaped.1]
          exact .newline (ih _)
      · exact (ih _).append_escape quotes character

/-- Every text can be quoted in either mark. The reader finds one quotation, which stands for the
text, and leaves exactly what is written behind it. -/
theorem Lexeme.next?_quotation_write {mark : Char} (quotes : Quoted.isMark mark = true)
    (chosen : Nat → Bool) (value rest : List Char) :
    next? (mark :: (Quoted.write mark chosen value ++ mark :: rest)) =
        some (.quotation mark (Quoted.write mark chosen value), rest) ∧
      (quotation mark (Quoted.write mark chosen value)).value? = some value := by
  have spells := Quoted.spells_write quotes chosen value
  have formed : (quotation mark (Quoted.write mark chosen value)).Formed := ⟨quotes, value, spells⟩
  constructor
  · have stops : (quotation mark (Quoted.write mark chosen value)).Stops rest := fun _ _ => rfl
    have found := next?_text_append formed stops
    simpa only [text, List.cons_append, List.append_assoc, List.nil_append] using found
  · rw [value?, Quoted.decode_of_spells spells]

/-- A backslash in front of a newline is read back, and so is one in front of a letter. -/
theorem Lexeme.next?_quotation_write_backslashes :
    Quoted.isMark '\x27' = true ∧
      next? ['\x27', '\\', '\\', '\\', 'n', '\\', '\\', 'n', '\\', '\x27', '\n', '\x27', '#'] =
        some (.quotation '\x27' ['\\', '\\', '\\', 'n', '\\', '\\', 'n', '\\', '\x27', '\n'], ['#']) ∧
      (quotation '\x27' ['\\', '\\', '\\', 'n', '\\', '\\', 'n', '\\', '\x27', '\n']).value? =
        some ['\\', '\n', '\\', 'n', '\x27', '\n'] :=
  ⟨by decide, next?_quotation_write (by decide) (fun place => place == 1)
    ['\\', '\n', '\\', 'n', '\x27', '\n'] ['#']⟩

end Lifeline
