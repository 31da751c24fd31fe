import Lifeline.Diagnostic
import Lifeline.Text
import Lifeline.Token.Lexeme

/-! A token is a lexeme with a value, its separator and its place. -/

namespace Lifeline

/-- The separator is the blank text in front of the token; the span leaves it out and takes in the
marks of a quotation. -/
structure Token where
  separator : String
  value : String
  quoted : Bool := false
  span : Span := .origin
  deriving DecidableEq

namespace Token

/-- A newline ends a line unless it is quoted. -/
def isLineBreak (token : Token) : Bool := !token.quoted && token.value == "\n"

/-- Quoting makes no difference to the value that a token is compared by. -/
def is (token : Token) (text : String) : Bool := token.value == text

/-- Blanks add to the pending separator; every other lexeme leaves none behind. -/
def pendingAfter (pending : List Char) : Lexeme → List Char
  | .blank run => pending ++ run
  | _ => []

/-- This function places lexemes from a byte offset on. The pending separator belongs to the next
lexeme with a value. -/
def ofLexemes (offset : Nat) (pending : List Char) : List Lexeme → List Token
  | [] => []
  | lexeme :: rest =>
      let bytes := Text.byteCount lexeme.text
      let others := ofLexemes (offset + bytes) (pendingAfter pending lexeme) rest
      match lexeme.value? with
      | none => others
      | some value =>
          { separator := String.ofList pending
            value := String.ofList value
            quoted := lexeme.isQuotation
            span := .covering offset bytes } :: others

end Token

/-- An open quotation runs from its mark to the end of the source. -/
structure OpenQuotation where
  mark : Char
  span : Span
  deriving DecidableEq

namespace OpenQuotation

def diagnostic (quotation : OpenQuotation) : Diagnostic where
  message := "unterminated token"
  code := some .unclosedQuote
  labels := [⟨quotation.span, "string starts here and never ends", true⟩]
  help := some ("add a closing `" ++ quotation.mark.toString ++ "`")

end OpenQuotation

/-- This function cuts a source into tokens. It fails only where a quotation is left open. -/
def tokenize (source : String) : Except OpenQuotation (List Token) :=
  match Lexeme.scan source.toList with
  | (lexemes, []) => .ok (Token.ofLexemes 0 [] lexemes)
  | (lexemes, mark :: rest) =>
      .error
        { mark := mark
          span := .covering (Text.byteCount (lexemes.flatMap Lexeme.text))
            (Text.byteCount (mark :: rest)) }

end Lifeline
