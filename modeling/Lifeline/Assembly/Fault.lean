import Lifeline.Diagnostic
import Lifeline.Diagram

/-! A fault is the cause for which a list of statements makes no diagram. -/

namespace Lifeline

/-- An origin is the place of a statement in its document. -/
structure Origin where
  number : Nat
  span : Span
  deriving DecidableEq

/-- These commands list participants and must not name an outer column. -/
inductive Command where
  | define
  | enter
  | leave
  deriving DecidableEq

def Command.keyword : Command → String
  | .define => "define"
  | .enter => "begin"
  | .leave => "end"

inductive Fault where
  | undefinedMarker (origin : Origin) (target : String)
  | reservedName (origin : Origin) (command : Command) (name : String)
  | strayEnd (origin : Origin)
  | unclosedBlock (opening : Origin) (mode : BlockMode)
  | straySplit (origin : Origin)
  | unsplittable (origin : Origin) (mode : BlockMode) (opening : Span)
  deriving DecidableEq

/-- These words name the statement in a message. -/
def Origin.mention (origin : Origin) : String := " (statement " ++ toString origin.number ++ ")"

def Fault.diagnostic : Fault → Diagnostic
  | .undefinedMarker origin target =>
      { message := "undefined marker `" ++ target ++ "`" ++ origin.mention
        code := some .undefinedMarker
        labels := [⟨origin.span, "marker is not defined before this point", true⟩]
        help := some ("add a `" ++ target ++ ":` line before this one") }
  | .reservedName origin command name =>
      { message :=
          "cannot " ++ command.keyword ++ " reserved agent `" ++ name ++ "`" ++ origin.mention
        code := some .reservedName
        labels := [⟨origin.span, "reserved agent used here", true⟩]
        help := some
          ("`" ++ Side.left.bracket ++ "` and `" ++ Side.right.bracket ++
            "` always exist and cannot be changed") }
  | .strayEnd origin =>
      { message := "`end` without an open block" ++ origin.mention
        code := some .strayEnd
        labels := [⟨origin.span, "nothing to close", true⟩]
        help := some "remove this line or open a block with `if` or `repeat`" }
  | .unclosedBlock opening mode =>
      { message := "unterminated " ++ mode.keyword ++ " block" ++ opening.mention
        code := some .unclosedBlock
        labels := [⟨opening.span, "block opened here", true⟩]
        help := some "close the block with a line containing only `end`" }
  | .straySplit origin =>
      { message := "invalid split: no block is open" ++ origin.mention
        code := some .misplacedSplit
        labels := [⟨origin.span, "cannot split here", true⟩]
        help := some "`else` and `elif` must appear inside an `if` block" }
  | .unsplittable origin mode opening =>
      { message :=
          "invalid split: `" ++ mode.keyword ++ "` blocks cannot be split" ++ origin.mention
        code := some .misplacedSplit
        labels := [⟨origin.span, "cannot split here", true⟩, ⟨opening, "block opened here", false⟩] }

end Lifeline
