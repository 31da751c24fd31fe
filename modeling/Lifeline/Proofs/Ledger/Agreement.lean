import Lifeline.Ledger.Work
import Lifeline.Proofs.Ledger.Edges
import Lifeline.Proofs.Neighbours
import Lifeline.Proofs.NormalForm

/-! A work and an assembly that carry out the same statements agree. -/

namespace Lifeline

/-- The numbers of a nest mark the columns that its draft has used. -/
structure Nest.Follows (nest : Nest) (known : List Column) (draft : Draft) : Prop where
  recent : nest.recent = draft.recent
  used : Ledger.Marks known nest.used draft.used
  live : nest.live = draft.live

/-- This is the frame of a bay with a draft around it. -/
def Bay.frame (bay : Bay) (outer : Draft) : Frame where
  number := bay.number
  mode := bay.mode
  opening := bay.opening
  closed := bay.closed
  sectionMode := bay.sectionMode
  sectionLabel := bay.sectionLabel
  outer := outer

/-- These are the columns that a block gets when it is kept. -/
def Bay.edges (bay : Bay) : List Column := [.edge bay.number .left, .edge bay.number .right]

/-- A bay follows a frame that has the same block and whose draft the outer nest follows. -/
inductive Bay.Follows (known : List Column) (bay : Bay) : Frame → Prop where
  | around {draft : Draft} (outer : bay.outer.Follows known draft) :
      Follows known bay (bay.frame draft)

/-- A work follows an assembly if it differs from it only in that columns are known by numbers. -/
structure Work.Follows (work : Work) (known : List Column) (assembly : Assembly) : Prop where
  ledger : work.ledger.Keeps known assembly.roster
  markers : work.markers = assembly.markers
  nest : work.nest.Follows known assembly.draft
  bays : work.bays.Forall₂ (Bay.Follows known) assembly.frames
  blocks : work.blocks = assembly.blocks
  taken : work.taken = assembly.taken

/-- Either both go on and the work follows the assembly, or both stop at the same fault. -/
inductive Work.Agrees (known : List Column) : Except Slip Work → Except Fault Assembly → Prop where
  | stops (fault : Fault) : Agrees known (.error (.fault fault)) (.error fault)
  | goesOn {work : Work} {assembly : Assembly} (more : List Column)
      (follows : work.Follows (known ++ more) assembly) : Agrees known (.ok work) (.ok assembly)

open Ledger (Refers Marks Keeps)

variable {known : List Column}

/-- Results that agree are the same fault, or a work that follows an assembly. -/
theorem Work.Agrees.cases {result : Except Slip Work} {expected : Except Fault Assembly}
    (agrees : Agrees known result expected) :
    (∃ fault, result = .error (.fault fault) ∧ expected = .error fault) ∨
      ∃ work assembly more, result = .ok work ∧ expected = .ok assembly ∧
        work.Follows (known ++ more) assembly := by
  cases agrees with
  | stops fault => exact Or.inl ⟨fault, rfl, rfl⟩
  | goesOn more follows => exact Or.inr ⟨_, _, more, rfl, rfl, follows⟩

/-- The extension adds the numbers that are not there yet. -/
theorem Nest.mem_used_extend {nest : Nest} {numbers : List Nat} {number : Nat} :
    number ∈ (nest.extend numbers).used ↔ number ∈ nest.used ∨ number ∈ numbers := by
  induction numbers generalizing nest with
  | nil => simp [extend]
  | cons first rest ih =>
      have next : (nest.extend (first :: rest)).used =
          (({ nest with used := if nest.used.contains first then nest.used
            else nest.used ++ [first] } : Nest).extend rest).used := rfl
      rw [next, ih]
      split
      · next again =>
          have inside : first ∈ nest.used := List.contains_iff_mem.mp again
          grind
      · grind

theorem Work.Agrees.of_append {result : Except Slip Work} {expected : Except Fault Assembly}
    {more : List Column} (agrees : Agrees (known ++ more) result expected) :
    Agrees known result expected := by
  cases agrees with
  | stops fault => exact .stops fault
  | goesOn others follows => exact .goesOn (more ++ others) (by rwa [← List.append_assoc])

namespace Nest.Follows

variable {nest : Nest} {draft : Draft}

/-- More columns change nothing about the numbers of the others. -/
theorem append_known (follows : nest.Follows known draft) (more : List Column) :
    nest.Follows (known ++ more) draft :=
  ⟨follows.recent, follows.used.append_known more, follows.live⟩

theorem stages_eq (follows : nest.Follows known draft) : nest.stages = draft.stages := by
  rw [Nest.stages, Draft.stages, follows.recent]

/-- The nest around a block uses all columns of the block. -/
theorem extend (follows : nest.Follows known draft) {numbers : List Nat} {columns : List Column}
    (marks : Marks known numbers columns)
    (inner : ∀ column ∈ columns, ∀ side, column ≠ .outer side) :
    (nest.extend numbers).Follows known (draft.use columns) where
  recent := follows.recent
  used := follows.used.union marks (fun _ => Nest.mem_used_extend) fun column => by
    rw [Draft.mem_used_use]
    exact or_congr_right (and_iff_left_of_imp (inner column))
  live := follows.live

/-- A stage is pushed alike. -/
theorem push (follows : nest.Follows known draft) (stage : Stage) :
    (nest.push stage).Follows known (draft.push stage) where
  recent := congrArg (stage :: ·) follows.recent
  used := follows.used
  live := congrArg (· || stage.isDrawn) follows.live

/-- A change joins the last stage of both or of neither. -/
theorem change (follows : nest.Follows known draft) (change : Change) (names : List String)
    (mode : Terminator) : (nest.change change names mode).Follows known
      (draft.change change names mode) := by
  rw [Nest.change, Draft.change, follows.recent]
  cases draft.recent with
  | nil => exact follows.push _
  | cons newest older =>
      cases found : change.names? mode newest with
      | none =>
          simp only [found]
          exact follows.push _
      | some earlier =>
          simp only [found]
          exact ⟨rfl, follows.used, rfl⟩

end Nest.Follows

theorem Bay.Follows.append_known {bay : Bay} {frame : Frame} (follows : bay.Follows known frame)
    (more : List Column) : bay.Follows (known ++ more) frame := by
  obtain ⟨outer⟩ := follows
  exact .around (outer.append_known more)

namespace Work.Follows

variable {work : Work} {assembly : Assembly} {numbers : List Nat} {names : List String}

theorem place (follows : work.Follows known assembly) (stage : Stage) :
    (work.place stage).Follows known (assembly.place stage) :=
  { follows with nest := follows.nest.push stage }

/-- Numbers are used as their names are. -/
theorem use_eq (follows : work.Follows known assembly)
    (refers : Refers known numbers (names.map Column.named)) :
    ∃ next, work.use numbers = .ok next ∧ next.Follows known (assembly.use names) := by
  obtain ⟨used, marked, marks⟩ := follows.ledger.shows.markUsed_eq follows.nest.used refers
  refine ⟨{ work with nest := { work.nest with used } }, by rw [use, marked]; rfl, ?_⟩
  exact { follows with nest := ⟨follows.nest.recent, marks, follows.nest.live⟩ }

/-- A change is brought upon the same participants by their numbers and by their names. -/
theorem change_eq (follows : work.Follows known assembly) (change : Change) (mode : Terminator)
    (refers : Refers known numbers (names.map Column.named)) :
    ∃ next, work.change change numbers mode = .ok next ∧
      next.Follows known (assembly.change change names mode) := by
  obtain ⟨changed, selected, changedRefers⟩ := follows.ledger.select_eq change refers
  rw [Work.change, selected, Except.bind]
  rcases assembly.change_cases change names mode with ⟨none, same⟩ | ⟨some, changes⟩
  · rw [none] at changedRefers
    cases changedRefers
    rw [same]
    exact ⟨work, rfl, follows⟩
  · have filled : changed.isEmpty = false := by
      rw [List.isEmpty_eq_false_iff, ← List.length_pos_iff, changedRefers.length_eq, List.length_map]
      exact List.length_pos_of_ne_nil some
    obtain ⟨ledger, shown, keeps⟩ := follows.ledger.setVisibleAll_eq change changedRefers
      fun name member => (Roster.mem_changeable.mp member).2.1
    have shownFollows : Work.Follows { work with ledger } known
        { assembly with roster := assembly.roster.change _ change } :=
      { follows with ledger := keeps }
    obtain ⟨next, used, nextFollows⟩ := shownFollows.use_eq changedRefers
    have named := nextFollows.ledger.shows.mapM_name_eq changedRefers
    rw [List.map_map, show Column.name ∘ Column.named = id from funext Column.name_named,
      List.map_id] at named
    refine ⟨{ next with
      nest := next.nest.change change (assembly.roster.changeable change names) mode }, ?_, ?_⟩
    · simp only [filled, shown, Except.bind, used, named, Except.map, Bool.false_eq_true, if_false]
    · rw [changes]
      exact { nextFollows with nest := nextFollows.nest.change change _ mode }

/-- Names are looked up one after another whether or not they are checked. -/
theorem internAll_eq (follows : work.Follows known assembly) (names : List String) :
    ∃ ledger numbers more, work.ledger.internAll names = .ok (ledger, numbers) ∧
      Work.Follows { work with ledger } (known ++ more) (assembly.register names) ∧
      Refers (known ++ more) numbers (names.map Column.named) := by
  obtain ⟨ledger, numbers, more, interned, keeps, refers⟩ := follows.ledger.internAll_eq names
  refine ⟨ledger, numbers, more, interned, ?_, refers⟩
  exact
    { ledger := keeps
      markers := follows.markers
      nest := follows.nest.append_known more
      bays := follows.bays.imp fun _ _ bay => bay.append_known more
      blocks := follows.blocks
      taken := follows.taken }

end Work.Follows

namespace Work

variable {work : Work} {assembly : Assembly} {origin : Origin} {command : Command}
  {names : List String}

/-- Where nobody is reserved, a declaration looks everyone up. -/
theorem declare_of_free (free : ∀ name ∈ names, Column.isReserved name = false) :
    work.declare origin command names =
      (work.ledger.internAll names).map fun (ledger, numbers) =>
        ({ work with ledger }, numbers) := by
  induction names generalizing work with
  | nil => rfl
  | cons name rest ih =>
      have open' : ¬Column.isReserved name = true := by simp [free name List.mem_cons_self]
      rw [declare, if_neg open', Ledger.internAll]
      cases work.ledger.intern name with
      | error slip => rfl
      | ok interned =>
          obtain ⟨ledger, number⟩ := interned
          simp only [Except.bind]
          rw [ih fun other member => free other (List.mem_cons_of_mem name member)]
          cases ledger.internAll rest <;> rfl

/-- A declaration stops at the first reserved name. -/
theorem declare_of_reserved {roster : Roster} (keeps : work.ledger.Keeps known roster) {name : String}
    (reserved : names.find? Column.isReserved = some name) :
    work.declare origin command names = .error (.fault (.reservedName origin command name)) := by
  induction names generalizing work known roster with
  | nil => simp at reserved
  | cons first rest ih =>
      rw [declare]
      by_cases here : Column.isReserved first = true
      · rw [List.find?_cons_of_pos here] at reserved
        rw [if_pos here, Option.some.inj reserved]
      · rw [List.find?_cons_of_neg here] at reserved
        obtain ⟨ledger, number, more, interned, kept, _⟩ := keeps.intern_eq first
        have later : Work.declare { work with ledger } origin command rest =
            .error (.fault (.reservedName origin command name)) := ih kept reserved
        simp only [if_neg here, interned, Except.bind, later, Except.map]

namespace Follows

/-- A declaration stops at a reserved name, or it goes on with the numbers of all that it lists. -/
theorem declare_cases (follows : work.Follows known assembly) (origin : Origin) (command : Command)
    (names : List String) :
    (∃ fault, work.declare origin command names = .error (.fault fault) ∧
        assembly.declare origin command names = .error fault) ∨
      ∃ next numbers more, work.declare origin command names = .ok (next, numbers) ∧
        assembly.declare origin command names = .ok (assembly.register names) ∧
        next.Follows (known ++ more) (assembly.register names) ∧
        Refers (known ++ more) numbers (names.map Column.named) := by
  rw [Assembly.declare]
  cases reserved : names.find? Column.isReserved with
  | some name => exact Or.inl ⟨_, declare_of_reserved follows.ledger reserved, rfl⟩
  | none =>
      obtain ⟨ledger, numbers, more, interned, declared, refers⟩ := follows.internAll_eq names
      refine Or.inr ⟨_, numbers, more, ?_, rfl, declared, refers⟩
      rw [declare_of_free (Column.find?_isReserved_eq_none.mp reserved), interned]
      rfl

/-- The participants that are declared change by their numbers as they do by their names. -/
theorem declare_change_agrees (follows : work.Follows known assembly) (origin : Origin)
    (command : Command) (names : List String) (change : Change) (mode : Terminator) :
    Agrees known
      ((work.declare origin command names).bind fun (next, numbers) =>
        next.change change numbers mode)
      ((assembly.declare origin command names).map fun next => next.change change names mode) := by
  rcases follows.declare_cases origin command names with
    ⟨fault, stopped, stoppedToo⟩ | ⟨next, numbers, more, declared, declaredToo, nextFollows, refers⟩
  · rw [stopped, stoppedToo]
    exact .stops fault
  · obtain ⟨last, changed, lastFollows⟩ := nextFollows.change_eq change mode refers
    rw [declared, declaredToo]
    simp only [Except.bind, changed, Except.map]
    exact .goesOn more lastFollows

/-- Both let everyone begin of whom a stage speaks. -/
theorem speak_eq (follows : work.Follows known assembly) (names : List String) (stage : Stage) :
    ∃ next numbers more, work.speak names stage = .ok (next, numbers) ∧
      next.Follows (known ++ more) (assembly.speak names stage) ∧
      Refers (known ++ more) numbers (names.map Column.named) := by
  obtain ⟨ledger, numbers, more, interned, declared, refers⟩ := follows.internAll_eq names
  obtain ⟨begun, changed, begunFollows⟩ := declared.change_eq .enter .box refers
  obtain ⟨drawn, used, drawnFollows⟩ := begunFollows.use_eq refers
  refine ⟨drawn.place stage, numbers, more, ?_, drawnFollows.place stage, refers⟩
  simp only [speak, interned, Except.bind, changed, used, Except.map]

/-- A note has the same effect by numbers. -/
theorem note_agrees (follows : work.Follows known assembly) (position : NotePosition)
    (style : NoteStyle) (mentions : List Mention) (label : String) :
    Agrees known (work.note position style mentions label)
      (.ok (assembly.note position style mentions label)) := by
  obtain ⟨next, numbers, more, spoken, nextFollows, _⟩ := follows.speak_eq
    (if mentions.isEmpty then position.outerNames else mentions.map Mention.name)
    (.note position style _ label)
  rw [note, spoken]
  exact .goesOn more nextFollows

/-- Those who are flagged to depart are found by their numbers. -/
theorem message_agrees (follows : work.Follows known assembly) (sender receiver : Mention)
    (arrow : Arrow) (label : String) :
    Agrees known (work.message sender receiver arrow label)
      (.ok (assembly.message sender receiver arrow label)) := by
  obtain ⟨spoke, numbers, more, spoken, spokeFollows, refers⟩ := follows.speak_eq
    [sender.name, receiver.name] (.message sender.name receiver.name arrow label)
  have flagged : Refers (known ++ more)
      (((numbers.zip [sender, receiver]).filter fun pair => pair.2.flag == some .depart).map Prod.fst)
      ((([sender, receiver].filter fun mention => mention.flag == some .depart).map
        Mention.name).map Column.named) := by
    obtain ⟨first, _, foundFirst, others, rfl⟩ := List.forall₂_cons_right_iff.mp refers
    obtain ⟨second, _, foundSecond, none, rfl⟩ := List.forall₂_cons_right_iff.mp others
    obtain rfl := List.forall₂_nil_right_iff.mp none
    have pairs : List.Forall₂ (fun (pair : Nat × Mention) mention => pair.2 = mention ∧
        (known ++ more)[pair.1]? = some (Column.named mention.name))
        [(first, sender), (second, receiver)] [sender, receiver] :=
      .cons ⟨rfl, foundFirst⟩ (.cons ⟨rfl, foundSecond⟩ .nil)
    have filtered := List.rel_filter (p := fun (pair : Nat × Mention) =>
        pair.2.flag == some .depart) (q := fun mention => mention.flag == some .depart)
      (fun _ _ ⟨same, _⟩ => same ▸ Iff.rfl) pairs
    rw [List.map_map]
    exact List.forall₂_map_left_iff.mpr (List.forall₂_map_right_iff.mpr
      (filtered.imp fun _ _ facts => facts.2))
  obtain ⟨next, changed, nextFollows⟩ := spokeFollows.change_eq .leave .cross flagged
  rw [message, spoken]
  simp only [Except.bind, changed]
  exact .goesOn more nextFollows

theorem openBlock (follows : work.Follows known assembly) (origin : Origin) (mode : BlockMode)
    (label : String) :
    (work.openBlock origin mode label).Follows known (assembly.openBlock origin mode label) where
  ledger := follows.ledger
  markers := follows.markers
  nest := ⟨rfl, Refers.marks .nil, rfl⟩
  bays := .cons (follows.blocks ▸ .around follows.nest) follows.bays
  blocks := congrArg (· + 1) follows.blocks
  taken := follows.taken

/-- A section is closed alike. -/
theorem divide (follows : work.Follows known assembly) {bay : Bay} {draft : Draft}
    {bays : List Bay} {frames : List Frame} (here : bay.outer.Follows known draft)
    (around : bays.Forall₂ (Bay.Follows known) frames) (mode : BlockMode) (label : String) :
    (work.divide bay bays mode label).Follows known
      (assembly.divide (bay.frame draft) frames mode label) where
  ledger := follows.ledger
  markers := follows.markers
  nest := ⟨rfl, follows.nest.used, follows.nest.live⟩
  bays := by
    rw [Work.divide, Assembly.divide, follows.nest.stages_eq]
    exact .cons (.around here) around
  blocks := follows.blocks
  taken := follows.taken

/-- The innermost block is the same by numbers, and so are the blocks around it. -/
theorem inside_of_frames (follows : work.Follows known assembly) {frame : Frame} {frames : List Frame}
    (inside : assembly.frames = frame :: frames) :
    ∃ bay draft bays, work.bays = bay :: bays ∧ frame = bay.frame draft ∧
      bay.outer.Follows known draft ∧ bays.Forall₂ (Bay.Follows known) frames := by
  have bays := follows.bays
  rw [inside] at bays
  obtain ⟨bay, rest, ⟨here⟩, around, within⟩ := List.forall₂_cons_right_iff.mp bays
  exact ⟨bay, _, rest, within, rfl, here, around⟩

theorem bays_eq_nil (follows : work.Follows known assembly) (outermost : assembly.frames = []) :
    work.bays = [] := by
  have bays := follows.bays
  rwa [outermost, List.forall₂_nil_right_iff] at bays

/-- A split has the same effect by numbers, or the same fault. -/
theorem splitBlock_agrees (follows : work.Follows known assembly) (origin : Origin)
    (mode : BlockMode) (label : String) :
    Agrees known (work.splitBlock origin mode label) (assembly.splitBlock origin mode label) := by
  rw [Work.splitBlock, Assembly.splitBlock]
  cases inside : assembly.frames with
  | nil =>
      rw [follows.bays_eq_nil inside]
      exact .stops _
  | cons frame frames =>
      obtain ⟨bay, draft, bays, within, rfl, here, around⟩ := follows.inside_of_frames inside
      rw [within]
      change Agrees known (if bay.mode.isSplittable = true then _ else _)
        (if bay.mode.isSplittable = true then _ else _)
      split
      · exact .goesOn [] (by rw [List.append_nil]; exact follows.divide here around mode label)
      · exact .stops _

/-- A block is dropped alike. -/
theorem drop (follows : work.Follows known assembly) {bay : Bay} {draft : Draft} {bays : List Bay}
    {frames : List Frame} (here : bay.outer.Follows known draft)
    (around : bays.Forall₂ (Bay.Follows known) frames) :
    (work.drop bay bays).Follows known (assembly.drop (bay.frame draft) frames) :=
  { follows with nest := here, bays := around }

/-- The edges of a block are entered behind all columns that are known. -/
theorem enterEdges_eq (follows : work.Follows known assembly) {bay : Bay}
    (fresh : ∀ side, Column.edge bay.number side ∉ assembly.roster.columns) :
    ∃ ledger, work.enterEdges bay = (ledger, known.length, known.length + 1) ∧
      ledger.Shows (known ++ bay.edges) assembly.roster.columns assembly.roster.visible.contains ∧
      (known ++ bay.edges)[known.length]? = some (.edge bay.number .left) ∧
      (known ++ bay.edges)[known.length + 1]? = some (.edge bay.number .right) := by
  have unknown (side : Side) : Column.edge bay.number side ∉ known := fun member =>
    fresh side (follows.ledger.placed _ member)
  obtain ⟨left, entered⟩ := follows.ledger.shows.push_edge (unknown .left)
  have unknownRight : Column.edge bay.number .right ∉ known ++ [.edge bay.number .left] := by
    simpa using unknown .right
  obtain ⟨right, enteredToo⟩ := entered.push_edge unknownRight
  rw [List.append_assoc, List.singleton_append] at enteredToo
  rw [List.length_append, List.length_singleton] at right
  refine ⟨_, ?_, enteredToo, by simp [Bay.edges], by simp [Bay.edges]⟩
  simp only [enterEdges, left, right]

/-- A block that is kept gets the same places for its edges, whatever the spare is. -/
theorem keep_eq (spare : Nat → Except Slip Nat) (follows : work.Follows known assembly) {bay : Bay}
    {draft : Draft} {bays : List Bay} {frames : List Frame} (here : bay.outer.Follows known draft)
    (around : bays.Forall₂ (Bay.Follows known) frames) (proper : assembly.roster.Proper)
    (fresh : ∀ side, Column.edge bay.number side ∉ assembly.roster.inner)
    (inside : ∀ column ∈ assembly.draft.used, column ∈ assembly.roster.inner) :
    ∃ next, work.keep spare bay bays = .ok next ∧
      next.Follows (known ++ bay.edges) (assembly.keep (bay.frame draft) frames) := by
  have absent (side : Side) : Column.edge bay.number side ∉ assembly.roster.columns := by
    simpa [Roster.columns] using fresh side
  obtain ⟨ledger, entered, shows, left, right⟩ := follows.enterEdges_eq absent
  obtain ⟨placed, enclosed, shown⟩ := shows.enclose_eq spare proper left right fresh
    (follows.nest.used.append_known _) inside
  have edges : Marks (known ++ bay.edges) [known.length, known.length + 1] bay.edges :=
    Refers.marks (.cons left (.cons right .nil))
  have outside (side : Side) : Column.outer side ∉ assembly.draft.used := fun used =>
    proper.framed side (inside _ used)
  have used := (here.append_known bay.edges).extend (follows.nest.used.append_known _)
    fun column used side outer => outside side (outer ▸ used)
  have usedToo := used.extend edges (by simp [Bay.edges])
  rw [Draft.use_append] at usedToo
  have stages : bay.sections work.nest.stages = (bay.frame draft).sections assembly.draft.stages := by
    rw [follows.nest.stages_eq]
    rfl
  rw [Work.keep, entered]
  dsimp only
  rw [enclosed, stages]
  exact ⟨_, rfl,
    { ledger := follows.ledger.enclose shown
      markers := follows.markers
      nest := usedToo.push _
      bays := around.imp fun _ _ bay => bay.append_known _
      blocks := follows.blocks
      taken := follows.taken }⟩

/-- A block that is kept without numbers is kept with them, and one that is dropped is dropped. -/
theorem closeBlock_agrees (spare : Nat → Except Slip Nat) (follows : work.Follows known assembly)
    (moves : Assembly.Moves {} assembly) (origin : Origin) :
    Agrees known (work.closeBlock spare origin) (assembly.closeBlock origin) := by
  rw [Work.closeBlock, Assembly.closeBlock]
  cases inside : assembly.frames with
  | nil =>
      rw [follows.bays_eq_nil inside]
      exact .stops _
  | cons frame frames =>
      obtain ⟨bay, draft, bays, within, rfl, here, around⟩ := follows.inside_of_frames inside
      rw [within, ← follows.nest.live]
      dsimp only
      split
      · have sound := Assembly.sound_of_moves moves
        have used := Assembly.mem_inner_of_used sound (Assembly.accounted_of_moves moves) inside
        obtain ⟨next, kept, nextFollows⟩ := follows.keep_eq spare here around
          (Assembly.proper_of_moves moves) (sound.numbered.notMem_inner inside) used
        rw [kept]
        exact .goesOn _ nextFollows
      · exact .goesOn [] (by rw [List.append_nil]; exact follows.drop here around)

theorem mark (follows : work.Follows known assembly) (name : String) :
    (work.mark name).Follows known (assembly.mark name) :=
  { follows.place (.mark name) with markers := congrArg (name :: ·) follows.markers }

/-- A jump has the same effect by numbers, or the same fault. -/
theorem jump_agrees (follows : work.Follows known assembly) (origin : Origin) (target : String) :
    Agrees known (work.jump origin target) (assembly.jump origin target) := by
  rw [Work.jump, Assembly.jump, follows.markers]
  split
  · exact .goesOn [] (by rw [List.append_nil]; exact follows.place (.jump target))
  · exact .stops _

/-- Every statement is carried out alike, whatever the spare is. -/
theorem perform_agrees (spare : Nat → Except Slip Nat) (follows : work.Follows known assembly)
    (moves : Assembly.Moves {} assembly) (origin : Origin) (statement : Statement) :
    Agrees known (work.perform spare origin statement) (assembly.perform origin statement) := by
  cases statement with
  | define mentions =>
      rw [Work.perform, Assembly.perform]
      rcases follows.declare_cases origin .define (mentions.map Mention.name) with
        ⟨fault, stopped, stoppedToo⟩ | ⟨next, numbers, more, declared, declaredToo, nextFollows, _⟩
      · rw [stopped, stoppedToo]
        exact .stops fault
      · rw [declared, declaredToo]
        exact .goesOn more nextFollows
  | enter mentions mode => exact follows.declare_change_agrees origin .enter _ .enter mode
  | leave mentions mode => exact follows.declare_change_agrees origin .leave _ .leave mode
  | message sender receiver arrow label => exact follows.message_agrees sender receiver arrow label
  | note position style mentions label => exact follows.note_agrees position style mentions label
  | mark name => exact .goesOn [] (by rw [List.append_nil]; exact follows.mark name)
  | jump target => exact follows.jump_agrees origin target
  | openBlock mode label =>
      exact .goesOn [] (by rw [List.append_nil]; exact follows.openBlock origin mode label)
  | splitBlock mode label => exact follows.splitBlock_agrees origin mode label
  | closeBlock => exact follows.closeBlock_agrees spare moves origin

/-- A counted statement has the same effect by numbers, or the same fault. -/
theorem take_agrees (spare : Nat → Except Slip Nat) (follows : work.Follows known assembly)
    (moves : Assembly.Moves {} assembly) (located : Located) :
    Agrees known (work.take spare located) (assembly.take located) := by
  have performed := follows.perform_agrees spare moves ⟨assembly.taken + 1, located.span⟩
    located.statement
  rw [Work.take, Assembly.take, follows.taken]
  rcases performed.cases with
    ⟨fault, stopped, stoppedToo⟩ | ⟨next, after, more, went, wentToo, goesOn⟩
  · rw [stopped, stoppedToo]
    exact .stops fault
  · rw [went, wentToo]
    exact .goesOn more { goesOn with taken := rfl }

/-- A run is followed from its start to its end. -/
theorem run_agrees (spare : Nat → Except Slip Nat) (follows : work.Follows known assembly)
    (moves : Assembly.Moves {} assembly) (statements : List Located) :
    Agrees known (work.run spare statements) (assembly.run statements) := by
  induction statements generalizing work assembly known with
  | nil => exact .goesOn [] (by rwa [List.append_nil])
  | cons located rest ih =>
      have cons : work.run spare (located :: rest) =
          (work.take spare located).bind fun next => next.run spare rest := by
        rw [Work.run, List.foldlM_cons]
        rfl
      rw [cons, Assembly.run_cons]
      rcases (follows.take_agrees spare moves located).cases with
        ⟨fault, stopped, stoppedToo⟩ | ⟨next, after, more, went, wentToo, goesOn⟩
      · rw [stopped, stoppedToo]
        exact .stops fault
      · rw [went, wentToo]
        exact (ih goesOn (moves.trans (Assembly.moves_take wentToo))).of_append

end Follows

/-- Both begin with the two outer columns. -/
theorem follows_start : Work.Follows {} [.outer .left, .outer .right] {} where
  ledger := Keeps.start
  markers := rfl
  nest := ⟨rfl, Refers.marks .nil, rfl⟩
  bays := .nil
  blocks := rfl
  taken := rfl

namespace Follows

/-- At the end everyone who is visible is found and ended. -/
theorem ended_eq (follows : work.Follows known assembly) (proper : assembly.roster.Proper)
    (header : Header) :
    ∃ last, work.ended header = .ok last ∧ last.Follows known (assembly.ended header) := by
  obtain ⟨numbers, listed, refers⟩ := follows.ledger.visibleInOrder_eq proper
  obtain ⟨last, changed, lastFollows⟩ := follows.change_eq .leave header.terminators refers
  exact ⟨last, by rw [ended, listed]; exact changed, lastFollows⟩

/-- The same diagram is finished by numbers, or the same fault is found. -/
theorem finish_eq (follows : work.Follows known assembly) (moves : Assembly.Moves {} assembly)
    (header : Header) :
    work.finish header = (assembly.finish header).mapError Slip.fault := by
  rw [Work.finish, Assembly.finish]
  cases inside : assembly.frames with
  | cons frame frames =>
      obtain ⟨bay, draft, bays, within, rfl, _, _⟩ := follows.inside_of_frames inside
      rw [within]
      rfl
  | nil =>
      have proper := Assembly.proper_of_moves moves
      obtain ⟨last, ended, lastFollows⟩ := follows.ended_eq proper header
      have distinct : (assembly.ended header).roster.columns.Nodup := by
        rw [Assembly.ended, Assembly.columns_change]
        exact proper.nodup_columns
      rw [follows.bays_eq_nil inside, ended]
      simp only [Except.bind, lastFollows.ledger.shows.names_eq distinct, Except.map,
        lastFollows.nest.stages_eq]
      rfl

end Follows

end Work

/-- The diagram of a document is the same by numbers, and so is its fault. No number and no place is
ever outside, and the spare is never asked. -/
theorem Document.assembleByNumbers_eq (spare : Nat → Except Slip Nat) (document : Document) :
    document.assembleByNumbers spare = document.assemble.mapError Slip.fault := by
  have agrees := Work.follows_start.run_agrees spare .refl document.statements
  rw [assembleByNumbers, assemble]
  rcases agrees.cases with ⟨fault, stopped, stoppedToo⟩ | ⟨last, final, _, ran, ranToo, follows⟩
  · rw [stopped, stoppedToo]
    rfl
  · rw [ran, ranToo]
    exact follows.finish_eq (Assembly.moves_run ranToo) document.header

end Lifeline
