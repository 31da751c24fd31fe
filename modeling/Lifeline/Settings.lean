import Lifeline.Diagram
import Lifeline.Json
import Lifeline.Toml

/-! The settings of a job are read from a TOML text. -/

namespace Lifeline

structure Settings where
  terminators : Terminator := .none
  pretty : Bool := true
  deriving DecidableEq

namespace Settings

/-- A pretty text is indented. -/
def layout (settings : Settings) : Json.Layout := if settings.pretty then .indented else .compact

/-- A document starts with an empty title and with the terminator of the settings. -/
def header (settings : Settings) : Header := { terminators := settings.terminators }

/-- A name of no terminator is refused. -/
def terminators? : Option TomlValue → Option Terminator
  | none => some Terminator.none
  | some (.text word) => Terminator.ofName? (String.ofList word)
  | some _ => none

def pretty? : Option TomlValue → Option Bool
  | none => some true
  | some (.boolean value) => some value
  | some _ => none

/-- The settings stand in two tables, and a value in the place of a table is an error. -/
def ofToml? (toml : Toml) : Option Settings :=
  if Toml.hasKey toml.root "parser".toList || Toml.hasKey toml.root "export".toList then none
  else
    match terminators? (toml.lookup? "parser" "default_terminators"),
        pretty? (toml.lookup? "export" "pretty") with
    | some terminators, some pretty => some ⟨terminators, pretty⟩
    | _, _ => none

def read? (text : String) : Option Settings := (Toml.read? text).bind ofToml?

end Settings

end Lifeline
