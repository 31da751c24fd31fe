import Mathlib.Tactic.Push
import Lifeline.Job

/-! A job writes its whole output or nothing. -/

namespace Lifeline

/-- A choice of settings is a file that is asked for and missing, a file that is there, or none. -/
inductive Choice where
  | missing (path : String)
  | file (bytes : ByteArray)
  | defaults

/-- The search goes from the file that is asked for over the one nearby to the one of the system. -/
def Sources.choice (sources : Sources) : Choice :=
  match sources.asked, sources.nearby, sources.system with
  | some (path, none), _, _ => .missing path
  | some (_, some bytes), _, _ => .file bytes
  | none, some bytes, _ => .file bytes
  | none, none, some bytes => .file bytes
  | none, none, none => .defaults

namespace Choice

/-- Settings are loaded from a file that is a text of settings. -/
inductive Loads : Choice → Settings → Prop where
  | file {text : String} {settings : Settings} (reads : Settings.read? text = some settings) :
      Loads (.file text.toUTF8) settings
  | defaults : Loads .defaults {}

/-- Settings are refused if the file is missing, is no text or is no text of settings. -/
inductive Refuses : Choice → Failure → Prop where
  | missing {path : String} :
      Refuses (.missing path) (.settings ("Missing configuration file: " ++ path))
  | notText {bytes : ByteArray} (foreign : ∀ text : String, bytes ≠ text.toUTF8) :
      Refuses (.file bytes) (.file FileTrouble.notText.text)
  | wrong {text : String} (wrong : Settings.read? text = none) :
      Refuses (.file text.toUTF8) (.settings "Failed to parse TOML configuration")

/-- Two choices are alike if they are the same or if they load the same terminator. The layout shows
in the text only. -/
inductive Alike : Choice → Choice → Prop where
  | refl (choice : Choice) : Alike choice choice
  | loads {choice other : Choice} {settings others : Settings} (loaded : choice.Loads settings)
      (also : other.Loads others) (same : settings.terminators = others.terminators) :
      Alike choice other

end Choice

/-- These are the steps of a job. -/
inductive Step where
  | configuration
  | reading
  | parsing
  | writing
  deriving DecidableEq

/-- The steps are taken in this order. -/
def Step.rank : Step → Nat
  | .configuration => 0
  | .reading => 1
  | .parsing => 2
  | .writing => 3

namespace Job

/-- A step fails by itself. The source is parsed under the settings. -/
inductive Fails (job : Job) : Step → Failure → Prop where
  | configuration {failure : Failure} (refused : job.sources.choice.Refuses failure) :
      Fails job .configuration failure
  | missing (missing : job.input = none) : Fails job .reading (.file FileTrouble.missing.text)
  | notText {bytes : ByteArray} (given : job.input = some bytes)
      (foreign : ∀ text : String, bytes ≠ text.toUTF8) :
      Fails job .reading (.file FileTrouble.notText.text)
  | parsing {settings : Settings} {source : String} {complaint : Complaint}
      (loaded : job.sources.choice.Loads settings) (given : job.input = some source.toUTF8)
      (refused : compile settings.header source = .error complaint) :
      Fails job .parsing (.source complaint.diagnostic)
  | writing (closed : job.writable = false) :
      Fails job .writing (.file FileTrouble.missing.text)

/-- Two jobs agree on what a step and the earlier ones look at. -/
structure Agrees (job other : Job) (step : Step) : Prop where
  choice : job.sources.choice.Alike other.sources.choice
  input : Step.reading.rank ≤ step.rank → job.input = other.input
  writable : Step.writing.rank ≤ step.rank → job.writable = other.writable

/-- This stands in the output behind the job, if `before` stood there. -/
def output (job : Job) (before : Option String) : Option String :=
  match job.run with
  | .ok text => some text
  | .error _ => before

end Job

section Texts

variable {bytes : ByteArray}

/-- Bytes are decoded to a text exactly if they are its encoding. -/
theorem fromUTF8?_eq_some_iff {text : String} :
    String.fromUTF8? bytes = some text ↔ bytes = text.toUTF8 := by
  rw [String.fromUTF8?]
  split
  · constructor
    · rintro ⟨⟩
      rfl
    · rintro rfl
      rfl
  · next invalid =>
      constructor
      · rintro ⟨⟩
      · rintro rfl
        exact absurd text.isValidUTF8 invalid

/-- Bytes that encode no text are not decoded. -/
theorem fromUTF8?_eq_none_iff :
    String.fromUTF8? bytes = none ↔ ∀ text : String, bytes ≠ text.toUTF8 := by
  rw [Option.eq_none_iff_forall_ne_some]
  exact forall_congr' fun text => not_congr fromUTF8?_eq_some_iff

/-- The encoding of a text is read as the text. -/
theorem readText_toUTF8 (text : String) : readText text.toUTF8 = .ok text := by
  rw [readText, fromUTF8?_eq_some_iff.mpr rfl]

/-- Bytes that encode no text are a trouble of the file. -/
theorem readText_of_foreign (foreign : ∀ text : String, bytes ≠ text.toUTF8) :
    readText bytes = .error (.file FileTrouble.notText.text) := by
  rw [readText, fromUTF8?_eq_none_iff.mpr foreign]

end Texts

/-- This function gives the settings of a choice. -/
def Choice.settings : Choice → Except Failure Settings
  | .missing path => .error (.settings ("Missing configuration file: " ++ path))
  | .file bytes => readSettings bytes
  | .defaults => .ok {}

namespace Choice

variable {choice other : Choice} {settings others : Settings} {failure : Failure}

/-- Settings that load are those of the job. -/
theorem settings_of_loads (loaded : choice.Loads settings) : choice.settings = .ok settings := by
  cases loaded with
  | file reads =>
      rw [Choice.settings, readSettings, readText_toUTF8]
      simp [reads, bind, Except.bind]
  | defaults => rfl

/-- Settings that are refused fail with the refusal. -/
theorem settings_of_refuses (refused : choice.Refuses failure) :
    choice.settings = .error failure := by
  cases refused with
  | missing => rfl
  | notText foreign =>
      rw [Choice.settings, readSettings, readText_of_foreign foreign]
      rfl
  | wrong wrong =>
      rw [Choice.settings, readSettings, readText_toUTF8]
      simp [wrong, bind, Except.bind]

/-- What loads is not refused. -/
theorem not_refuses_of_loads (loaded : choice.Loads settings) : ¬choice.Refuses failure := by
  intro refused
  have both := (settings_of_loads loaded).symm.trans (settings_of_refuses refused)
  cases both

/-- A choice loads one record of settings only. -/
theorem Loads.unique (loaded : choice.Loads settings) (also : choice.Loads others) :
    settings = others :=
  Except.ok.inj ((settings_of_loads loaded).symm.trans (settings_of_loads also))

theorem Alike.symm (alike : choice.Alike other) : other.Alike choice := by
  cases alike with
  | refl => exact .refl choice
  | loads loaded also same => exact .loads also loaded same.symm

/-- Choices that are alike are refused alike. -/
theorem Alike.refuses (alike : choice.Alike other) (refused : choice.Refuses failure) :
    other.Refuses failure := by
  cases alike with
  | refl => exact refused
  | loads loaded => exact absurd refused (not_refuses_of_loads loaded)

/-- A document starts in the same way under choices that are alike. -/
theorem Alike.exists_header (alike : choice.Alike other) (loaded : choice.Loads settings) :
    ∃ others, other.Loads others ∧ settings.header = others.header := by
  cases alike with
  | refl => exact ⟨settings, loaded, rfl⟩
  | loads first also same =>
      obtain rfl := first.unique loaded
      exact ⟨_, also, by rw [Settings.header, Settings.header, same]⟩

end Choice

namespace Job

variable {job other : Job} {step earlier : Step} {failure : Failure} {text : String}

theorem Agrees.symm (agrees : job.Agrees other step) : other.Agrees job step where
  choice := agrees.choice.symm
  input late := (agrees.input late).symm
  writable late := (agrees.writable late).symm

/-- A step and the earlier ones look at what the jobs agree on, and so they fail alike. -/
theorem Agrees.fails (agrees : job.Agrees other step) (within : earlier.rank ≤ step.rank)
    (fails : job.Fails earlier failure) : other.Fails earlier failure := by
  cases fails with
  | configuration refused => exact .configuration (agrees.choice.refuses refused)
  | missing missing => exact .missing (agrees.input within ▸ missing)
  | notText given foreign => exact .notText (agrees.input within ▸ given) foreign
  | parsing loaded given refused =>
      obtain ⟨others, also, same⟩ := agrees.choice.exists_header loaded
      have late : Step.reading.rank ≤ step.rank := Nat.le_trans (by decide) within
      exact .parsing also (agrees.input late ▸ given) (same ▸ refused)
  | writing closed => exact .writing (agrees.writable within ▸ closed)

section Steps

variable {settings : Settings} {source : String}

end Steps

/-- Missing settings come before a missing source and a missing place. -/
example : run ⟨{ asked := some ("a.toml", none) }, none, false⟩ =
    .error (.settings "Missing configuration file: a.toml") := by
  rfl

end Job

end Lifeline
