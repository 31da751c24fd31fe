import Lifeline.CommandLine
import Lifeline.Job

/-! The program leaves to the job all that is to be decided. -/

namespace Lifeline.Program

def usage : String :=
  "Usage: lifeline [OPTIONS] <INPUT>\n\n" ++
  "  -o, --output <OUTPUT>        where the diagram is written [default: out.json]\n" ++
  "  -c, --config <CONFIG>        the settings file\n" ++
  "      --log-level <LOG_LEVEL>  how much is logged [default: info]\n" ++
  "  -h, --help                   print help\n" ++
  "  -V, --version                print version"

def complaint : Stop → String
  | .missingInput => "error: the input is missing"
  | .missingValue => "error: an option has no value"
  | .unexpectedValue => "error: a switch takes no value"
  | .unknownArgument => "error: an argument is not known"
  | .repeated => "error: an option is given twice"
  | .shown .help => usage
  | .shown .version => "lifeline 0.1.0"

/-- A file that cannot be read counts as missing. -/
def readFile (path : String) : IO (Option ByteArray) := do
  try
    return some (← IO.FS.readBinFile path)
  catch _ =>
    return none

/-- The settings of the system stand in the directory that the environment names, or else in the
home directory. -/
def systemPath : IO (Option String) := do
  match ← IO.getEnv "XDG_CONFIG_HOME", ← IO.getEnv "HOME" with
  | some directory, _ => return some (directory ++ "/chorus/config.toml")
  | none, some home => return some (home ++ "/.config/chorus/config.toml")
  | none, none => return none

def findSources (asked : Option String) : IO Sources := do
  match asked with
  | some path => return { asked := some (path, ← readFile path) }
  | none =>
      let system ←
        match ← systemPath with
        | some path => readFile path
        | none => pure none
      return { nearby := ← readFile "chorus/config.toml", system := system }

def report (failure : Failure) : IO UInt32 := do
  IO.eprintln failure.message
  if let some help := failure.help then
    IO.eprintln ("help: " ++ help)
  return 1

def perform (command : CommandLine) : IO UInt32 := do
  let sources ← findSources command.settings
  let input ← readFile command.input
  let job : Job := { sources := sources, input := input }
  match job.text with
  | .error failure => report failure
  | .ok text =>
      try
        IO.FS.writeFile command.output text
        return 0
      catch trouble =>
        report (.file (toString trouble))

end Lifeline.Program

def main (arguments : List String) : IO UInt32 := do
  match Lifeline.CommandLine.read arguments with
  | .ok command => Lifeline.Program.perform command
  | .error (.shown switch) =>
      IO.println (Lifeline.Program.complaint (.shown switch))
      return 0
  | .error stop =>
      IO.eprintln (Lifeline.Program.complaint stop)
      return 2
