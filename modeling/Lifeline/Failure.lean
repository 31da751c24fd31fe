import Lifeline.Diagnostic
import Lifeline.Failure.Output

/-! A failure is the reason for which a job ends without its result. -/

namespace Lifeline

inductive Failure where
  | file (text : String)
  | source (diagnostic : Diagnostic)
  | output (trouble : OutputTrouble)
  | settings (text : String)
  deriving DecidableEq

/-- A pointer is a label as a report draws it, from an offset on over a number of bytes. -/
structure Pointer where
  offset : Nat
  length : Nat
  message : String
  primary : Bool
  deriving DecidableEq

def Label.pointer (label : Label) : Pointer where
  offset := label.span.start
  length := label.span.length
  message := label.message
  primary := label.primary

namespace Failure

/-- The message names the kind of failure first. -/
def message : Failure → String
  | .file text => "I/O error: " ++ text
  | .source diagnostic => diagnostic.headline
  | .output trouble => "Export error: " ++ trouble.text
  | .settings text => "Configuration error: " ++ text

/-- The title of a report leaves the code of a diagnostic out, since the report gives it apart. -/
def title : Failure → String
  | .source diagnostic => diagnostic.message
  | failure => failure.message

def code : Failure → Option String
  | .file _ => some "chorus::io"
  | .source diagnostic =>
      diagnostic.code.map fun code => code.name ++ " (" ++ code.summary ++ ")"
  | .output _ => some "chorus::export"
  | .settings _ => some "chorus::config"

def help : Failure → Option String
  | .source diagnostic => diagnostic.help
  | .settings _ => some "check the file passed with --config or chorus/config.toml"
  | .file _ => none
  | .output _ => none

/-- Only a failure of the source points into a text. -/
def labels : Failure → List Label
  | .source diagnostic => diagnostic.labels
  | _ => []

/-- A report draws the labels, if there are any. -/
def pointers? (failure : Failure) : Option (List Pointer) :=
  if failure.labels.isEmpty then none else some (failure.labels.map Label.pointer)

def showsSource : Failure → Bool
  | .source _ => true
  | _ => false

/-- The cause is the text of the error underneath, where there is one. -/
def cause : Failure → Option String
  | .file text => some text
  | .output trouble => some trouble.text
  | .source _ => none
  | .settings _ => none

end Failure

end Lifeline
