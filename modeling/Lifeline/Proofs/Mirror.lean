import Lifeline.Proofs.Lifecycle
import Lifeline.Proofs.Script

/-!
A script leads to what it was written from, but for participants who have their columns already.
-/

namespace Lifeline

/-- The place where a block was opened is left out. -/
def Frame.unplaced (frame : Frame) : Frame := { frame with opening := ⟨0, .origin⟩ }

/-- Frames that differ in their openings only are told apart by them. -/
theorem Frame.eq_of_unplaced {frame other : Frame} (same : frame.unplaced = other.unplaced) :
    frame = { other with opening := frame.opening } := by
  cases frame
  cases other
  simp_all [unplaced]

namespace Assembly

/-- A mirror of an assembly has the columns of some later participants behind all others. It does
not know how many statements led to the assembly, or where a block was opened. -/
structure Mirrors (mirror original : Assembly) (later : List String) : Prop where
  inner : mirror.roster.inner = original.roster.inner ++ later.map Column.participant
  visible : mirror.roster.visible = original.roster.visible
  markers : mirror.markers = original.markers
  draft : mirror.draft = original.draft
  frames : mirror.frames.map Frame.unplaced = original.frames.map Frame.unplaced
  blocks : mirror.blocks = original.blocks

section Performing

variable {assembly next : Assembly} {origin : Origin}

/-- Names are registered one list after another. -/
theorem register_append (assembly : Assembly) (first second : List String) :
    assembly.register (first ++ second) = (assembly.register first).register second := by
  rw [register, Roster.registerAll, List.foldl_append]
  rfl

/-- Whoever has a column is not registered again. -/
theorem register_of_mem {names : List String}
    (known : ∀ name ∈ names, Column.named name ∈ assembly.roster.columns) :
    assembly.register names = assembly := by
  rw [register, Roster.registerAll_of_mem known]

/-- A written change is refused only if it names an outer column. -/
theorem perform_change_eq_ok {change : Change} {names : List String} {mode : Terminator} :
    assembly.perform origin (change.statement names mode) = .ok next ↔
      (∀ name ∈ names, Column.isReserved name = false) ∧
        next = (assembly.register names).change change names mode := by
  rw [← Column.find?_isReserved_eq_none]
  cases change with
  | enter =>
      rw [Change.statement, perform, Mention.map_name_plain, declare]
      cases names.find? Column.isReserved <;> simp [Except.map, eq_comm]
  | leave =>
      rw [Change.statement, perform, Mention.map_name_plain, declare]
      cases names.find? Column.isReserved <;> simp [Except.map, eq_comm]

/-- Participants who are registered and visible already only take part in the stage. -/
theorem speak_of_present {names : List String} {stage : Stage}
    (known : ∀ name ∈ names, Column.named name ∈ assembly.roster.columns)
    (present : Column.participants names ⊆ assembly.roster.shown) :
    assembly.speak names stage = (assembly.use names).place stage := by
  have none : assembly.roster.changeable .enter names = [] := by
    rw [Roster.changeable_eq_nil_iff]
    exact Finset.union_eq_left.mpr present
  have same : assembly.change .enter names .box = assembly := by
    rw [Assembly.change, none]
  rw [speak, register_of_mem known, same]

/-- The script of a message or a note takes nobody in or out. -/
theorem perform_script_of_speaks {stage : Stage} (spoken : stage.speaks = true)
    (some : stage.about ≠ [])
    (known : ∀ name ∈ stage.about, Column.named name ∈ assembly.roster.columns)
    (present : Column.participants stage.about ⊆ assembly.roster.shown) :
    ∃ statement, stage.script = [statement] ∧
      ∀ origin, assembly.perform origin statement = .ok ((assembly.use stage.about).place stage) := by
  have placed := @speak_of_present assembly stage.about stage known present
  cases stage with
  | message sender receiver arrow label =>
      refine ⟨_, rfl, fun origin => ?_⟩
      rw [← placed]
      rfl
  | note position style names label =>
      refine ⟨_, rfl, fun origin => ?_⟩
      have mentioned : (names.map Mention.plain).isEmpty = false := by
        simpa [Stage.about] using some
      rw [← placed, perform, note, mentioned, Mention.map_name_plain]
      rfl
  | _ => contradiction

end Performing

namespace Mirrors

variable {mirror original : Assembly} {later : List String}

/-- A mirror has all columns of the original. -/
theorem columns (mirrors : mirror.Mirrors original later) {name : String}
    (known : Column.named name ∈ original.roster.columns) :
    Column.named name ∈ mirror.roster.columns :=
  Roster.mem_columns_of_inner
    (fun _ member => mirrors.inner ▸ List.mem_append_left _ member) known

/-- The same participants are visible in a mirror. -/
theorem shown (mirrors : mirror.Mirrors original later) :
    mirror.roster.shown = original.roster.shown := by
  rw [Roster.shown, Roster.shown, mirrors.visible]

/-- Columns that the original gets are there already in the mirror. -/
theorem register {names new : List String} (mirrors : mirror.Mirrors original (new ++ later))
    (grown : (original.register names).roster.inner =
      original.roster.inner ++ new.map Column.participant) :
    mirror.Mirrors (original.register names) later where
  inner := by rw [mirrors.inner, grown, List.map_append, List.append_assoc]
  visible := mirrors.visible.trans (original.roster.visible_registerAll names).symm
  markers := mirrors.markers
  draft := mirrors.draft
  frames := mirrors.frames
  blocks := mirrors.blocks

/-- A change has the same effect in a mirror. -/
theorem change (mirrors : mirror.Mirrors original later) (change : Change) (names : List String)
    (mode : Terminator) :
    (mirror.change change names mode).Mirrors (original.change change names mode) later := by
  have able : mirror.roster.changeable change names = original.roster.changeable change names := by
    rw [Roster.changeable, Roster.changeable, mirrors.visible]
  rcases original.change_cases change names mode with ⟨none, same⟩ | ⟨some, changed⟩
  · have sameToo : mirror.change change names mode = mirror := by
      rw [Assembly.change, able, none]
    rw [same, sameToo]
    exact mirrors
  · rcases mirror.change_cases change names mode with ⟨none, _⟩ | ⟨_, changedToo⟩
    · exact absurd (able ▸ none) some
    · rw [changed, changedToo, able]
      exact
        { inner := by rw [Roster.inner_change, Roster.inner_change, mirrors.inner]
          visible := by cases change <;> rw [Roster.change, Roster.change, mirrors.visible]
          markers := mirrors.markers
          draft := by rw [mirrors.draft]
          frames := mirrors.frames
          blocks := mirrors.blocks }

theorem record_iff {taken : Nat} :
    Mirrors { mirror with taken := taken } original later ↔ mirror.Mirrors original later :=
  ⟨fun ⟨inner, visible, markers, draft, frames, blocks⟩ =>
      ⟨inner, visible, markers, draft, frames, blocks⟩,
    fun ⟨inner, visible, markers, draft, frames, blocks⟩ =>
      ⟨inner, visible, markers, draft, frames, blocks⟩⟩

theorem use (mirrors : mirror.Mirrors original later) (names : List String) :
    (mirror.use names).Mirrors (original.use names) later :=
  { mirrors with draft := by rw [Assembly.use, Assembly.use, mirrors.draft] }

theorem place (mirrors : mirror.Mirrors original later) (stage : Stage) :
    (mirror.place stage).Mirrors (original.place stage) later :=
  { mirrors with draft := by rw [Assembly.place, Assembly.place, mirrors.draft] }

/-- A mark is known in a mirror as well. -/
theorem mark (mirrors : mirror.Mirrors original later) (name : String) :
    (mirror.mark name).Mirrors (original.mark name) later :=
  { mirrors.place (.mark name) with markers := congrArg (name :: ·) mirrors.markers }

/-- The innermost blocks differ only in the places where they were opened. -/
theorem inside {frame : Frame} {outer : List Frame} (mirrors : mirror.Mirrors original later)
    (inside : original.frames = frame :: outer) :
    ∃ opening outerToo, mirror.frames = { frame with opening := opening } :: outerToo ∧
      outerToo.map Frame.unplaced = outer.map Frame.unplaced := by
  have frames := mirrors.frames
  rw [inside, List.map_cons] at frames
  obtain ⟨frameToo, outerToo, insideToo, same, outers⟩ := List.map_eq_cons_iff.mp frames
  refine ⟨frameToo.opening, outerToo, ?_, outers⟩
  rw [insideToo, ← Frame.eq_of_unplaced same]

/-- An opened block has the same number in a mirror. -/
theorem openBlock (mirrors : mirror.Mirrors original later) (origin originToo : Origin)
    (mode : BlockMode) (label : String) :
    (mirror.openBlock originToo mode label).Mirrors (original.openBlock origin mode label) later
    where
  inner := mirrors.inner
  visible := mirrors.visible
  markers := mirrors.markers
  draft := rfl
  frames := by
    rw [Assembly.openBlock, Assembly.openBlock, List.map_cons, List.map_cons, mirrors.frames,
      mirrors.blocks, mirrors.draft]
    rfl
  blocks := congrArg (· + 1) mirrors.blocks

/-- A split has the same effect in a mirror. -/
theorem divide {frame : Frame} {outer outerToo : List Frame} {opening : Origin}
    (mirrors : mirror.Mirrors original later)
    (outers : outerToo.map Frame.unplaced = outer.map Frame.unplaced) (mode : BlockMode)
    (label : String) :
    (mirror.divide { frame with opening := opening } outerToo mode label).Mirrors
      (original.divide frame outer mode label) later where
  inner := mirrors.inner
  visible := mirrors.visible
  markers := mirrors.markers
  draft := by rw [Assembly.divide, Assembly.divide, mirrors.draft]
  frames := by
    rw [Assembly.divide, Assembly.divide, List.map_cons, List.map_cons, outers, mirrors.draft]
    rfl
  blocks := mirrors.blocks

/-- The edges of a block come to the same places as long as no later participant is used in it. -/
theorem keep {frame : Frame} {outer outerToo : List Frame} {opening : Origin}
    (mirrors : mirror.Mirrors original later)
    (outers : outerToo.map Frame.unplaced = outer.map Frame.unplaced)
    (some : ∃ column ∈ original.roster.inner, column ∈ original.draft.used)
    (unused : ∀ name ∈ later, Column.participant name ∉ original.draft.used) :
    (mirror.keep { frame with opening := opening } outerToo).Mirrors
      (original.keep frame outer) later where
  inner := by
    have apart : ∀ column ∈ later.map Column.participant, column ∉ original.draft.used := by
      simpa using unused
    rw [Assembly.keep, Assembly.keep, mirrors.draft]
    exact Roster.inner_enclose_append frame.number mirrors.inner some apart
  visible := by
    rw [Assembly.keep, Assembly.keep, Roster.visible_enclose, Roster.visible_enclose,
      mirrors.visible]
  markers := mirrors.markers
  draft := by
    rw [Assembly.keep, Assembly.keep, mirrors.draft]
    rfl
  frames := outers
  blocks := mirrors.blocks

end Mirrors

/-- A change is written as a statement of its own, or else within the last statement. -/
theorem Replayed.script_change {assembly : Assembly} (replayed : assembly.Replayed)
    {change : Change} {names : List String} (mode : Terminator)
    (some : assembly.roster.changeable change names ≠ []) :
    (assembly.change change names mode).script = assembly.script ++
        [change.statement (assembly.roster.changeable change names) mode] ∨
      ∃ front earlier, assembly.script = front ++ [change.statement earlier mode] ∧
        (assembly.change change names mode).script = front ++
          [change.statement (earlier ++ assembly.roster.changeable change names) mode] := by
  have own (names : List String) : Stage.scriptAll [change.stage names mode] =
      [change.statement names mode] := by
    rw [Stage.scriptAll_singleton, Stage.script_change]
  rw [Assembly.script, Assembly.script, frames_change]
  rcases replayed.stages_change mode some with apart | ⟨older, earlier, drafted, joined, _⟩
  · left
    rw [Draft.script_grow apart, own]
  · right
    let rest : Draft := { recent := older.reverse }
    have front : rest.stages = older := List.reverse_reverse older
    rw [← front] at drafted joined
    refine ⟨rest.script assembly.frames, earlier, ?_, ?_⟩
    · rw [Draft.script_grow drafted, own]
    · rw [Draft.script_grow joined, own]

/-- The script of an assembly defines everyone who has a column, and some later participants, before
it writes what has been drafted. -/
def fullScript (assembly : Assembly) (later : List String) : List Statement :=
  .define ((assembly.roster.participants ++ later).map Mention.plain) :: assembly.script

/-- An assembly is mirrored if its script leads to a mirror of it, whoever comes later. -/
def Mirrored (assembly : Assembly) : Prop :=
  ∀ later : List String, (assembly.roster.participants ++ later).Nodup →
    (∀ name ∈ later, Column.isReserved name = false) →
      Leads (fun mirror => mirror.Mirrors assembly later) (assembly.fullScript later) {}

/-- Behind the definition of all participants, nothing is left to do for the start. -/
theorem mirrored_start : Mirrored {} := by
  intro later distinct free
  refine leads_singleton fun origin => ⟨register {} later, ?_, fun taken => ?_⟩
  · have ordinary := Column.find?_isReserved_eq_none.mpr free
    have names : (([] ++ later).map Mention.plain).map Mention.name = later :=
      Mention.map_name_plain later
    have listed : Roster.participants {} = [] := rfl
    rw [listed, perform, names, declare, ordinary]
  · have grown := @Roster.inner_registerAll_of_nodup {} later distinct free
    exact
      { inner := grown
        visible := Roster.visible_registerAll {} later
        markers := rfl
        draft := rfl
        frames := rfl
        blocks := rfl }

namespace Mirrored

variable {assembly next : Assembly}

/-- New participants are the first ones who come later. -/
theorem register (mirrored : assembly.Mirrored) (names : List String) :
    (assembly.register names).Mirrored := by
  obtain ⟨new, ordinary, grown⟩ := assembly.roster.exists_registerAll names
  have listed : (assembly.register names).roster.participants =
      assembly.roster.participants ++ new := by
    have parts : (new.map Column.participant).filterMap Column.participant? = new := by
      rw [List.filterMap_map]
      exact List.filterMap_some
    rw [Roster.participants, Assembly.register, grown, List.filterMap_append, parts,
      Roster.participants]
  intro later distinct free
  rw [listed, List.append_assoc] at distinct
  have freeAll : ∀ name ∈ new ++ later, Column.isReserved name = false :=
    List.forall_mem_append.mpr ⟨ordinary, free⟩
  have same : (assembly.register names).fullScript later = assembly.fullScript (new ++ later) := by
    rw [fullScript, fullScript, listed, List.append_assoc]
    rfl
  rw [same]
  exact (mirrored (new ++ later) distinct freeAll).imp fun _ mirrors => mirrors.register grown

/-- A statement that does the same to all mirrors can be added to the script. -/
theorem append (mirrored : assembly.Mirrored) {statement : Statement}
    (written : next.script = assembly.script ++ [statement])
    (listed : next.roster.participants = assembly.roster.participants)
    (performs : ∀ later : List String, (∀ name ∈ later, name ∉ assembly.roster.participants) →
      ∀ mirror : Assembly, mirror.Mirrors assembly later → ∀ origin, ∃ after,
        mirror.perform origin statement = .ok after ∧ after.Mirrors next later) :
    next.Mirrored := by
  intro later distinct free
  rw [listed] at distinct
  have fresh : ∀ name ∈ later, name ∉ assembly.roster.participants := fun name new old =>
    (List.nodup_append.mp distinct).2.2 name old name new rfl
  have grown : next.fullScript later = assembly.fullScript later ++ [statement] := by
    rw [fullScript, fullScript, listed, written, List.cons_append]
  rw [grown, leads_append]
  refine (mirrored later distinct free).imp fun mirror mirrors => leads_singleton fun origin => ?_
  obtain ⟨after, performed, mirrorsToo⟩ := performs later fresh mirror mirrors origin
  exact ⟨after, performed, fun _ => Mirrors.record_iff.mpr mirrorsToo⟩

/-- A statement that does more than the last one of the script can take its place. -/
theorem amend (mirrored : assembly.Mirrored) {front : List Statement} {last statement : Statement}
    (before : assembly.script = front ++ [last]) (behind : next.script = front ++ [statement])
    (listed : next.roster.participants = assembly.roster.participants)
    (performs : ∀ (later : List String) (start mirror : Assembly) (origin : Origin),
      start.perform origin last = .ok mirror → mirror.Mirrors assembly later →
        ∃ after, start.perform origin statement = .ok after ∧ after.Mirrors next later) :
    next.Mirrored := by
  intro later distinct free
  rw [listed] at distinct
  have leads := mirrored later distinct free
  rw [fullScript, before, ← List.cons_append, leads_append] at leads
  rw [fullScript, listed, behind, ← List.cons_append, leads_append]
  refine leads.imp fun start continues => fun span => ?_
  obtain ⟨_, taken, mirrors⟩ := continues span
  obtain ⟨mirror, accepted, rfl⟩ := except_map_eq_ok.mp taken
  obtain ⟨after, performed, mirrorsToo⟩ :=
    performs later start mirror _ accepted (Mirrors.record_iff.mp mirrors)
  exact ⟨_, except_map_eq_ok.mpr ⟨after, performed, rfl⟩, Mirrors.record_iff.mpr mirrorsToo⟩

/-- Whoever can undergo a change has a column. -/
theorem change (mirrored : assembly.Mirrored) (replayed : assembly.Replayed) {change : Change}
    {names : List String} (mode : Terminator)
    (listed : ∀ name ∈ assembly.roster.changeable change names,
      Column.named name ∈ assembly.roster.columns) :
    (assembly.change change names mode).Mirrored := by
  rcases assembly.change_cases change names mode with ⟨_, same⟩ | ⟨some, _⟩
  · rw [same]
    exact mirrored
  have free : ∀ name ∈ assembly.roster.changeable change names,
      Column.isReserved name = false := fun name member => (Roster.mem_changeable.mp member).2.1
  have participants := assembly.participants_change change names mode
  rcases replayed.script_change mode some with apart | ⟨front, earlier, before, behind⟩
  · refine mirrored.append apart participants fun later _ mirror mirrors origin => ?_
    refine ⟨_, perform_change_eq_ok.mpr ⟨free, rfl⟩, ?_⟩
    rw [register_of_mem fun name member => mirrors.columns (listed name member),
      ← assembly.change_changeable]
    exact mirrors.change change _ mode
  · -- The shorter statement has led to a mirror, which the names that are new to it then change.
    refine mirrored.amend before behind participants fun later start mirror origin done mirrors => ?_
    obtain ⟨freeEarlier, rfl⟩ := perform_change_eq_ok.mp done
    refine ⟨_, perform_change_eq_ok.mpr ⟨?_, rfl⟩, ?_⟩
    · exact List.forall_mem_append.mpr ⟨freeEarlier, free⟩
    · have known : ∀ name ∈ assembly.roster.changeable change names,
          Column.named name ∈ (start.register earlier).roster.columns := by
        intro name member
        rw [← (start.register earlier).columns_change change earlier mode]
        exact mirrors.columns (listed name member)
      rw [register_append, register_of_mem known, ← change_change, ← assembly.change_changeable]
      exact mirrors.change change _ mode

/-- Participants are registered and begin, and then the stage is written. -/
theorem speak (mirrored : assembly.Mirrored) (replayed : assembly.Replayed) {stage : Stage}
    (spoken : stage.speaks = true) (some : stage.about ≠ []) :
    (assembly.speak stage.about stage).Mirrored := by
  let begun := (assembly.register stage.about).change .enter stage.about .box
  have listed := assembly.known_of_begin stage.about
  have present := assembly.present_of_begin stage.about
  have mirroredBegun : begun.Mirrored :=
    (mirrored.register stage.about).change (replayed.register stage.about) .box
      fun name member => assembly.known_of_register _ name (Roster.mem_changeable.mp member).1
  obtain ⟨statement, script, _⟩ := perform_script_of_speaks spoken some listed present
  have written : (assembly.speak stage.about stage).script = begun.script ++ [statement] := by
    rw [← script, ← begun.script_use stage.about]
    exact (begun.use stage.about).script_place stage
  refine mirroredBegun.append written rfl fun later _ mirror mirrors origin => ?_
  obtain ⟨same, scriptToo, performed⟩ := @perform_script_of_speaks mirror stage spoken some
    (fun name member => mirrors.columns (listed name member)) (mirrors.shown ▸ present)
  obtain rfl : same = statement := List.singleton_inj.mp (scriptToo.symm.trans script)
  exact ⟨_, performed origin, (mirrors.use stage.about).place stage⟩

/-- A mark is its own script. -/
theorem mark (mirrored : assembly.Mirrored) (name : String) : (assembly.mark name).Mirrored :=
  mirrored.append (assembly.script_place (.mark name)) rfl
    fun _ _ _ mirrors _ => ⟨_, rfl, mirrors.mark name⟩

/-- A jump is its own script. -/
theorem jump (mirrored : assembly.Mirrored) {origin : Origin} {target : String}
    (jumped : assembly.jump origin target = .ok next) : next.Mirrored := by
  unfold Assembly.jump at jumped
  split at jumped
  · next marked =>
      obtain rfl := Except.ok.inj jumped
      refine mirrored.append (assembly.script_place (.jump target)) rfl
        fun later _ mirror mirrors _ => ⟨mirror.place (.jump target), ?_, mirrors.place _⟩
      rw [perform, Assembly.jump, mirrors.markers, if_pos marked]
  · contradiction

/-- The opening of a block is its own script. -/
theorem openBlock (mirrored : assembly.Mirrored) (origin : Origin) (mode : BlockMode)
    (label : String) : (assembly.openBlock origin mode label).Mirrored :=
  mirrored.append (assembly.script_openBlock origin mode label) rfl
    fun _ _ _ mirrors originToo => ⟨_, rfl, mirrors.openBlock origin originToo mode label⟩

/-- A split is its own script. -/
theorem splitBlock (mirrored : assembly.Mirrored) {origin : Origin} {mode : BlockMode}
    {label : String} (divided : assembly.splitBlock origin mode label = .ok next) :
    next.Mirrored := by
  unfold Assembly.splitBlock at divided
  split at divided
  · contradiction
  · next frame outer inside =>
      split at divided
      · next able =>
          obtain rfl := Except.ok.inj divided
          refine mirrored.append (script_divide inside mode label) rfl
            fun later _ mirror mirrors _ => ?_
          obtain ⟨opening, outerToo, insideToo, outers⟩ := mirrors.inside inside
          refine ⟨_, ?_, @Mirrors.divide _ _ _ frame outer outerToo opening mirrors outers mode label⟩
          rw [perform, Assembly.splitBlock, insideToo]
          exact if_pos able
      · contradiction

/-- No later participant is used in a block, since everyone who is used has a column. -/
theorem keep (mirrored : assembly.Mirrored) {frame : Frame} {outer : List Frame}
    (inside : assembly.frames = frame :: outer) (live : assembly.draft.live = true)
    (listed : ∀ column ∈ assembly.draft.used, column ∈ assembly.roster.inner)
    (some : assembly.draft.used ≠ []) : (assembly.keep frame outer).Mirrored := by
  have participants : (assembly.keep frame outer).roster.participants =
      assembly.roster.participants := assembly.roster.participants_enclose _ _
  refine mirrored.append (script_keep inside) participants fun later fresh mirror mirrors origin => ?_
  obtain ⟨opening, outerToo, insideToo, outers⟩ := mirrors.inside inside
  have liveToo : mirror.draft.live = true := mirrors.draft ▸ live
  refine ⟨mirror.keep { frame with opening := opening } outerToo, ?_, mirrors.keep outers ?_ ?_⟩
  · rw [perform, closeBlock, insideToo, liveToo]
    rfl
  · obtain ⟨column, used⟩ := List.exists_mem_of_ne_nil _ some
    exact ⟨column, listed column used, used⟩
  · intro name new used
    exact fresh name new (Roster.mem_participants.mpr (listed _ used))

end Mirrored

end Assembly

end Lifeline
