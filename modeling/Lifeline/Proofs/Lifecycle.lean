import Lifeline.Proofs.Invariants

/-! The stages of a diagram can be replayed from nobody visible to nobody visible. -/

namespace Lifeline

namespace Stage

/-- This is what a stage asks of the participants who are visible where it stands. -/
def Fits (visible : Finset String) : Stage → Prop
  | .enter names _ =>
      names ≠ [] ∧ names.Nodup ∧
        ∀ name ∈ names, Column.isReserved name = false ∧ name ∉ visible
  | .leave names _ => names ≠ [] ∧ names.Nodup ∧ ∀ name ∈ names, name ∈ visible
  | .message sender receiver _ _ =>
      ∀ name ∈ [sender, receiver], Column.isReserved name = false → name ∈ visible
  | .note _ _ names _ => ∀ name ∈ names, Column.isReserved name = false → name ∈ visible
  | .mark _ => True
  | .jump _ => True
  | .block _ _ _ => True

/-- These participants are visible behind a stage. -/
def shows (visible : Finset String) : Stage → Finset String
  | .enter names _ => visible ∪ names.toFinset
  | .leave names _ => visible \ names.toFinset
  | _ => visible

/-- A replay goes through stages one after another and keeps account of who is visible. -/
def Replays (visible : Finset String) : List Stage → Finset String → Prop
  | [], last => last = visible
  | stage :: rest, last => stage.Fits visible ∧ Replays (stage.shows visible) rest last

/-- Stages are replayed one list after another. -/
theorem replays_append {visible last : Finset String} {first second : List Stage} :
    Replays visible (first ++ second) last ↔
      ∃ middle, Replays visible first middle ∧ Replays middle second last := by
  induction first generalizing visible with
  | nil => simp [Replays]
  | cons stage rest ih =>
      rw [List.cons_append, Replays, ih]
      constructor
      · rintro ⟨fits, middle, before, behind⟩
        exact ⟨middle, ⟨fits, before⟩, behind⟩
      · rintro ⟨middle, ⟨fits, before⟩, behind⟩
        exact ⟨fits, middle, before, behind⟩

theorem replays_singleton {visible last : Finset String} {stage : Stage} :
    Replays visible [stage] last ↔ stage.Fits visible ∧ last = stage.shows visible :=
  Iff.rfl

/-- A mark and a jump fit everywhere and change nobody. -/
theorem shows_of_not_isDrawn {stage : Stage} (quiet : stage.isDrawn = false)
    (visible : Finset String) : stage.Fits visible ∧ stage.shows visible = visible := by
  cases stage <;> simp_all [isDrawn, Fits, shows]

/-- A message and a note fit where everyone is visible of whom they speak. -/
theorem fits_of_speaks {stage : Stage} {visible : Finset String} (spoken : stage.speaks = true)
    (present : Column.participants stage.about ⊆ visible) :
    stage.Fits visible ∧ stage.shows visible = visible := by
  have seen (name : String) (member : name ∈ stage.about)
      (free : Column.isReserved name = false) : name ∈ visible :=
    present (Column.mem_participants.mpr ⟨member, free⟩)
  cases stage with
  | message sender receiver arrow label => exact ⟨seen, rfl⟩
  | note position style names label => exact ⟨seen, rfl⟩
  | _ => contradiction

/-- Stages that leave nothing on the page do not matter at the end of a replay. -/
theorem replays_of_quiet {visible last : Finset String} {first second : List Stage}
    (quiet : ∀ stage ∈ second, stage.isDrawn = false)
    (replays : Replays visible (first ++ second) last) : Replays visible first last := by
  obtain ⟨middle, before, behind⟩ := replays_append.mp replays
  have same : last = middle := by
    clear before replays
    induction second generalizing middle with
    | nil => exact behind
    | cons stage rest ih =>
        have silent := quiet stage List.mem_cons_self
        have kept := (shows_of_not_isDrawn silent middle).2
        rw [Replays, kept] at behind
        exact ih (fun other member => quiet other (List.mem_cons_of_mem _ member)) middle behind.2
  rw [same]
  exact before

end Stage

namespace Change

/-- The stage of a change shows or hides those whom it names. -/
theorem shows_stage (change : Change) (names : List String) (mode : Terminator)
    (visible : Finset String) :
    (change.stage names mode).shows visible = change.apply visible names.toFinset := by
  cases change <;> rfl

/-- Changes of one kind in a row have no name in common. -/
theorem fresh_of_fits {change : Change} {earlier names : List String} {mode : Terminator}
    {visible : Finset String}
    (fits : (change.stage names mode).Fits (change.apply visible earlier.toFinset)) :
    names.Nodup ∧ ∀ name ∈ names, name ∉ earlier := by
  cases change with
  | enter =>
      obtain ⟨_, distinct, hidden⟩ := fits
      have fresh : ∀ name ∈ names, name ∉ earlier := fun name member again =>
        (hidden name member).2 (Finset.mem_union_right _ (List.mem_toFinset.mpr again))
      exact ⟨distinct, fresh⟩
  | leave =>
      obtain ⟨_, distinct, shown⟩ := fits
      have fresh : ∀ name ∈ names, name ∉ earlier := fun name member again =>
        (Finset.mem_sdiff.mp (shown name member)).2 (List.mem_toFinset.mpr again)
      exact ⟨distinct, fresh⟩

/-- Two changes of one kind in a row are one change. -/
theorem fits_stage_append {change : Change} {earlier names : List String} {mode : Terminator}
    {visible : Finset String} (first : (change.stage earlier mode).Fits visible)
    (second : (change.stage names mode).Fits (change.apply visible earlier.toFinset)) :
    (change.stage (earlier ++ names) mode).Fits visible ∧
      change.apply visible (earlier ++ names).toFinset =
        change.apply (change.apply visible earlier.toFinset) names.toFinset := by
  obtain ⟨others, fresh⟩ := fresh_of_fits second
  have together (distinct : earlier.Nodup) : (earlier ++ names).Nodup :=
    List.nodup_append'.mpr ⟨distinct, others, fun name old new => fresh name new old⟩
  cases change with
  | enter =>
      obtain ⟨some, distinct, hidden⟩ := first
      have hiddenAll : ∀ name ∈ earlier ++ names,
          Column.isReserved name = false ∧ name ∉ visible := by
        intro name member
        rcases List.mem_append.mp member with member | member
        · exact hidden name member
        · obtain ⟨free, absent⟩ := second.2.2 name member
          exact ⟨free, fun seen => absent (Finset.mem_union_left _ seen)⟩
      constructor
      · exact ⟨List.append_ne_nil_of_left_ne_nil some _, together distinct, hiddenAll⟩
      · ext name
        simp [Change.apply]
  | leave =>
      obtain ⟨some, distinct, shown⟩ := first
      have shownAll : ∀ name ∈ earlier ++ names, name ∈ visible := by
        intro name member
        rcases List.mem_append.mp member with member | member
        · exact shown name member
        · exact (Finset.mem_sdiff.mp (second.2.2 name member)).1
      constructor
      · exact ⟨List.append_ne_nil_of_left_ne_nil some _, together distinct, shownAll⟩
      · ext name
        simp [Change.apply, and_assoc]

/-- The participants who can undergo a change make a stage that fits. -/
theorem fits_changeable {roster : Roster} {change : Change} {names : List String}
    (mode : Terminator) (some : roster.changeable change names ≠ []) :
    (change.stage (roster.changeable change names) mode).Fits roster.shown := by
  have distinct := roster.nodup_changeable change names
  cases change with
  | enter =>
      have hidden : ∀ name ∈ roster.changeable .enter names,
          Column.isReserved name = false ∧ name ∉ roster.shown := by
        intro name member
        obtain ⟨_, free, absent⟩ := Roster.mem_changeable_enter.mp member
        exact ⟨free, fun seen => absent (Roster.mem_shown.mp seen)⟩
      exact ⟨some, distinct, hidden⟩
  | leave =>
      have shown : ∀ name ∈ roster.changeable .leave names, name ∈ roster.shown :=
        fun name member => Roster.mem_shown.mpr (Roster.mem_changeable_leave.mp member).2.2
      exact ⟨some, distinct, shown⟩

/-- A change that fits at the end of a replay can be added to it. -/
theorem Extends.replays {change : Change} {names : List String} {mode : Terminator}
    {before after : List Stage} {visible middle : Finset String}
    (extended : change.Extends names mode before after)
    (replays : Stage.Replays visible before middle)
    (fits : (change.stage names mode).Fits middle) :
    Stage.Replays visible after (change.apply middle names.toFinset) := by
  rcases extended with rfl | ⟨older, earlier, rfl, rfl⟩
  · exact Stage.replays_append.mpr
      ⟨middle, replays, fits, (change.shows_stage names mode middle).symm⟩
  · obtain ⟨start, old, last⟩ := Stage.replays_append.mp replays
    obtain ⟨first, rfl⟩ := Stage.replays_singleton.mp last
    rw [shows_stage] at fits ⊢
    obtain ⟨distinct, fresh⟩ := fresh_of_fits fits
    rw [Draft.merge_eq_append distinct fresh]
    obtain ⟨joined, same⟩ := fits_stage_append first fits
    have shown := change.shows_stage (earlier ++ names) mode start
    exact Stage.replays_append.mpr ⟨start, old, joined, (shown.trans same).symm⟩

end Change

namespace Assembly

/-- What has been written can be replayed, and shows who is visible now. -/
def Replayed (assembly : Assembly) : Prop :=
  Stage.Replays ∅ assembly.written assembly.roster.shown

/-- A registration adds nothing to replay. -/
theorem Replayed.register {assembly : Assembly} (replayed : assembly.Replayed)
    (names : List String) : (assembly.register names).Replayed := by
  rw [Replayed, shown_register]
  exact replayed

/-- A change is replayed by its stage. -/
theorem Replayed.change {assembly : Assembly} (replayed : assembly.Replayed) (change : Change)
    (names : List String) (mode : Terminator) : (assembly.change change names mode).Replayed := by
  rcases assembly.written_change change names mode with ⟨_, same⟩ | ⟨some, extended⟩
  · rw [same]
    exact replayed
  · rw [Replayed, shown_change, ← Roster.apply_changeable]
    exact extended.replays replayed (Change.fits_changeable mode some)

/-- A stage that fits and changes nobody can be placed. -/
theorem Replayed.place {assembly : Assembly} (replayed : assembly.Replayed) {stage : Stage}
    (leaf : stage.walk = [stage])
    (fits : stage.Fits assembly.roster.shown ∧
      stage.shows assembly.roster.shown = assembly.roster.shown) :
    (assembly.place stage).Replayed := by
  rw [Replayed, written_place assembly leaf]
  exact Stage.replays_append.mpr ⟨assembly.roster.shown, replayed, fits.1, fits.2.symm⟩

/-- Every move leaves stages that can be replayed. -/
theorem replayed_of_move (before after : Assembly) (move : Move before after)
    (holds : before.Quiet ∧ before.Replayed) : after.Quiet ∧ after.Replayed := by
  obtain ⟨quiet, replayed⟩ := holds
  refine ⟨quiet_of_move before after move quiet, ?_⟩
  cases move with
  | register names => exact replayed.register names
  | change change names mode known => exact replayed.change change names mode
  | speak stage spoken known present =>
      have used : (before.use stage.about).Replayed := by
        rw [Replayed, written_use]
        exact replayed
      exact used.place (Stage.walk_of_speaks spoken) (Stage.fits_of_speaks spoken present)
  | steer stage silent =>
      exact replayed.place (Stage.walk_of_not_isDrawn silent)
        (Stage.shows_of_not_isDrawn silent before.roster.shown)
  | record markers taken => exact replayed
  | openBlock origin mode label =>
      rw [Replayed, written_openBlock]
      exact replayed
  | divide frame outer mode label inside =>
      rw [Replayed, written_divide inside]
      exact replayed
  | keep frame outer inside live =>
      rw [Replayed, written_inside inside] at replayed
      obtain ⟨middle, around, within⟩ := Stage.replays_append.mp replayed
      rw [Replayed, written_keep, shown_keep]
      exact Stage.replays_append.mpr ⟨middle, around, trivial, within⟩
  | drop frame outer inside dead =>
      rw [Replayed, written_inside inside] at replayed
      exact Stage.replays_of_quiet (quiet.inside inside dead) replayed

/-- The stages of every assembly that a document leads to can be replayed. -/
theorem replayed_of_moves {assembly : Assembly} (moves : Moves {} assembly) :
    assembly.Replayed :=
  (moves.keeps replayed_of_move ⟨quiet_of_moves .refl, rfl⟩).2

/-- Participants who join a stage are none of those who are there already. -/
theorem Replayed.fresh {assembly : Assembly} (replayed : assembly.Replayed) {change : Change}
    {names earlier : List String} {mode : Terminator} {older : List Stage}
    (drafted : assembly.draft.stages = older ++ [change.stage earlier mode])
    (some : assembly.roster.changeable change names ≠ []) :
    ∀ name ∈ assembly.roster.changeable change names, name ∉ earlier := by
  rw [Replayed, written_eq, drafted, Stage.walkAll_append, Stage.walkAll_singleton,
    Stage.walk_change, ← List.append_assoc] at replayed
  obtain ⟨start, _, last⟩ := Stage.replays_append.mp replayed
  have shown := (Stage.replays_singleton.mp last).2
  have fits := Change.fits_changeable mode some
  rw [shown, change.shows_stage] at fits
  exact (Change.fresh_of_fits fits).2

/-- A change is drafted as a stage of its own, or else behind the names of the last stage. -/
theorem Replayed.stages_change {assembly : Assembly} (replayed : assembly.Replayed)
    {change : Change} {names : List String} (mode : Terminator)
    (some : assembly.roster.changeable change names ≠ []) :
    (assembly.change change names mode).draft.stages =
        assembly.draft.stages ++ [change.stage (assembly.roster.changeable change names) mode] ∨
      ∃ older earlier, assembly.draft.stages = older ++ [change.stage earlier mode] ∧
        (assembly.change change names mode).draft.stages =
          older ++ [change.stage (earlier ++ assembly.roster.changeable change names) mode] ∧
        ∀ name ∈ assembly.roster.changeable change names, name ∉ earlier := by
  rcases assembly.change_cases change names mode with ⟨none, _⟩ | ⟨_, changed⟩
  · contradiction
  · have extended := (assembly.draft.use ((assembly.roster.changeable change names).map
      Column.named)).extends_change change (assembly.roster.changeable change names) mode
    rw [changed]
    rcases extended with apart | ⟨older, earlier, drafted, joined⟩
    · exact Or.inl apart
    · have fresh := replayed.fresh drafted some
      rw [Draft.merge_eq_append (assembly.roster.nodup_changeable change names) fresh] at joined
      exact Or.inr ⟨older, earlier, drafted, joined, fresh⟩

/-- Nobody is visible once everyone who was visible has ended. -/
theorem shown_ended {assembly : Assembly} (known : assembly.Known) (header : Header) :
    (assembly.ended header).roster.shown = ∅ := by
  rw [ended, shown_change, Change.apply, Finset.sdiff_eq_empty_iff_subset]
  intro name shown
  obtain ⟨free, column⟩ := known name (Roster.mem_shown.mp shown)
  exact Column.mem_participants.mpr
    ⟨Roster.mem_visibleInOrder.mpr ⟨column, Roster.mem_shown.mp shown⟩, free⟩

end Assembly

/-- Every diagram of a document can be replayed from its first stage to its last: each beginning is
one of hidden participants, each end is one of visible ones, messages and notes are about visible
participants only, and nobody is visible at the end. -/
theorem replays_assemble {document : Document} {diagram : Diagram}
    (assembled : document.assemble = .ok diagram) :
    Stage.Replays ∅ (Stage.walkAll diagram.stages) ∅ := by
  obtain ⟨last, ran, closed, rfl⟩ := Assembly.assemble_eq_ok assembled
  have moves := Assembly.moves_run ran
  have outermost : (last.ended document.header).frames = [] :=
    (last.frames_change _ _ _).trans closed
  have replayed : (last.ended document.header).Replayed :=
    (Assembly.replayed_of_moves moves).change _ _ _
  rw [Assembly.Replayed, Assembly.written_of_frames_eq_nil outermost,
    Assembly.shown_ended (Assembly.known_of_moves moves)] at replayed
  exact replayed

theorem replays_tour :
    ∃ diagram, Document.tour.assemble = .ok diagram ∧
      Stage.Replays ∅ (Stage.walkAll diagram.stages) ∅ := by
  have assembled : ∃ diagram, Document.tour.assemble = .ok diagram := ⟨_, rfl⟩
  obtain ⟨diagram, assembled⟩ := assembled
  exact ⟨diagram, assembled, replays_assemble assembled⟩

end Lifeline
