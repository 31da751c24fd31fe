import Lifeline.Compile
import Lifeline.Diagram.Json
import Lifeline.Failure
import Lifeline.Settings

/-! A job reads its settings and its source, compiles the source and writes the diagram. -/

namespace Lifeline

/-- A missing file and a file that is not text fail in different words. -/
inductive FileTrouble where
  | missing
  | notText
  deriving DecidableEq

def FileTrouble.text : FileTrouble → String
  | .missing => "No such file or directory (os error 2)"
  | .notText => "stream did not contain valid UTF-8"

/-- The search for settings goes from the file that the user asks for over the one nearby to the one
of the system. -/
structure Sources where
  asked : Option (String × Option ByteArray) := none
  nearby : Option ByteArray := none
  system : Option ByteArray := none

/-- A job knows what it finds when it reads its files, and whether its output has a place. -/
structure Job where
  sources : Sources := {}
  input : Option ByteArray
  writable : Bool := true

/-- A file is read as UTF-8, and all of it counts as text. -/
def readText (bytes : ByteArray) : Except Failure String :=
  match String.fromUTF8? bytes with
  | some text => .ok text
  | none => .error (.file FileTrouble.notText.text)

def readSettings (bytes : ByteArray) : Except Failure Settings := do
  let text ← readText bytes
  match Settings.read? text with
  | some settings => .ok settings
  | none => .error (.settings "Failed to parse TOML configuration")

/-- The first file of the search decides alone; without any, the defaults hold. -/
def Sources.settings (sources : Sources) : Except Failure Settings :=
  match sources.asked with
  | some (path, none) => .error (.settings ("Missing configuration file: " ++ path))
  | some (_, some bytes) => readSettings bytes
  | none =>
      match sources.nearby <|> sources.system with
      | some bytes => readSettings bytes
      | none => .ok {}

/-- This function gives the text of the diagram under the settings. -/
def Settings.render (settings : Settings) (source : String) : Except Failure String :=
  match compile settings.header source with
  | .ok diagram => .ok (diagram.render settings.layout)
  | .error complaint => .error (.source complaint.diagnostic)

namespace Job

def source (job : Job) : Except Failure String :=
  match job.input with
  | none => .error (.file FileTrouble.missing.text)
  | some bytes => readText bytes

/-- This function gives the text that the job has to write. -/
def text (job : Job) : Except Failure String := do
  let settings ← job.sources.settings
  let source ← job.source
  settings.render source

/-- This function gives the text that the job writes. -/
def run (job : Job) : Except Failure String := do
  let text ← job.text
  if job.writable then .ok text else .error (.file FileTrouble.missing.text)

end Job

end Lifeline
