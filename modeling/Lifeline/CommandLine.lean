/-! A command line is read option by option. -/

namespace Lifeline

inductive CommandOption where
  | output
  | settings
  | logLevel
  deriving DecidableEq

/-- A switch ends the command at once. -/
inductive Switch where
  | help
  | version
  deriving DecidableEq

/-- A stop is the reason for which a command line asks for no job. -/
inductive Stop where
  | missingInput
  | missingValue
  | unexpectedValue
  | unknownArgument
  | repeated
  | shown (switch : Switch)
  deriving DecidableEq

structure CommandLine where
  input : String
  output : String := "out.json"
  settings : Option String := none
  logLevel : String := "info"
  deriving DecidableEq

namespace CommandLine

def longName? : List Char → Option (CommandOption ⊕ Switch)
  | ['o', 'u', 't', 'p', 'u', 't'] => some (.inl .output)
  | ['c', 'o', 'n', 'f', 'i', 'g'] => some (.inl .settings)
  | ['l', 'o', 'g', '-', 'l', 'e', 'v', 'e', 'l'] => some (.inl .logLevel)
  | ['h', 'e', 'l', 'p'] => some (.inr .help)
  | ['v', 'e', 'r', 's', 'i', 'o', 'n'] => some (.inr .version)
  | _ => none

def shortName? : Char → Option (CommandOption ⊕ Switch)
  | 'o' => some (.inl .output)
  | 'c' => some (.inl .settings)
  | 'h' => some (.inr .help)
  | 'V' => some (.inr .version)
  | _ => none

/-- A reading remembers the settled options and the one that is not settled yet, which may still
wait for its value. -/
structure Reading where
  input : Option String := none
  settled : List (CommandOption × String) := []
  latest : Option (CommandOption × Option String) := none

namespace Reading

/-- An option is given once at most. -/
def add (reading : Reading) (option : CommandOption) (value : String) : Except Stop Reading :=
  if reading.settled.any fun entry => entry.1 == option then .error .repeated
  else .ok { reading with settled := (option, value) :: reading.settled }

/-- This function settles the option that is still open. -/
def settle (reading : Reading) : Except Stop Reading :=
  match reading.latest with
  | none => .ok reading
  | some (_, none) => .error .missingValue
  | some (option, some value) => { reading with latest := none }.add option value

/-- An option begins with or without an attached value. -/
def begin (reading : Reading) (option : CommandOption) : Option String → Except Stop Reading
  | some value => reading.settle.bind fun next => next.add option value
  | none => reading.settle.map fun next => { next with latest := some (option, none) }

/-- A switch ends the reading once the option in front of it is settled. -/
def flip (reading : Reading) (switch : Switch) : Except Stop Reading :=
  reading.settle.bind fun _ => .error (.shown switch)

/-- A long option may have a value behind an equals sign. -/
def takeLong (reading : Reading) (text : List Char) : Except Stop Reading :=
  let (name, value) :=
    match text.span (· != '=') with
    | (name, []) => (name, none)
    | (name, _ :: value) => (name, some (String.ofList value))
  match longName? name with
  | none => .error .unknownArgument
  | some (.inl option) => reading.begin option value
  | some (.inr switch) => if value.isSome then .error .unexpectedValue else reading.flip switch

/-- What follows the short name of an option in the same argument is its value. -/
def takeShort (reading : Reading) : List Char → Except Stop Reading
  | [] => .ok reading
  | name :: rest =>
      match shortName? name with
      | none => .error .unknownArgument
      | some (.inr switch) => reading.flip switch
      | some (.inl option) =>
          match rest with
          | [] => reading.begin option none
          | '=' :: value => reading.begin option (some (String.ofList value))
          | value => reading.begin option (some (String.ofList value))

/-- There is only one input, and a second one is refused before anything else. -/
def takeInput (reading : Reading) (text : String) : Except Stop Reading :=
  match reading.input with
  | some _ => .error .unknownArgument
  | none => reading.settle.map fun next => { next with input := some text }

/-- An argument that is no option is the value of the option that waits for one, or the input. -/
def takeWord (reading : Reading) (text : String) : Except Stop Reading :=
  match reading.latest with
  | some (option, none) => .ok { reading with latest := some (option, some text) }
  | _ => reading.takeInput text

/-- Behind two dashes every argument is an input. -/
def takeAll (reading : Reading) : List String → Except Stop Reading
  | [] => .ok reading
  | argument :: rest =>
      match argument.toList with
      | ['-', '-'] => rest.foldlM takeInput reading
      | '-' :: '-' :: text => (reading.takeLong text).bind fun next => next.takeAll rest
      | '-' :: name :: text => (reading.takeShort (name :: text)).bind fun next => next.takeAll rest
      | _ => (reading.takeWord argument).bind fun next => next.takeAll rest

def value? (reading : Reading) (option : CommandOption) : Option String :=
  (reading.settled.find? fun entry => entry.1 == option).map Prod.snd

end Reading

/-- This function reads the arguments behind the name of the program. -/
def read (arguments : List String) : Except Stop CommandLine := do
  let reading ← Reading.takeAll {} arguments
  let reading ← reading.settle
  match reading.input with
  | none => .error .missingInput
  | some input =>
      .ok
        { input := input
          output := (reading.value? .output).getD "out.json"
          settings := reading.value? .settings
          logLevel := (reading.value? .logLevel).getD "info" }

end CommandLine

end Lifeline
