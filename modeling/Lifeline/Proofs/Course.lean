import Lifeline.Proofs.Lifecycle
import Lifeline.Proofs.Listing

/-! The beginnings and ends of a participant follow from the statements that ask for them. -/

namespace Lifeline

/-- A turn is the beginning or the end of one lifeline with a figure. -/
structure Turn where
  change : Change
  mode : Terminator
  deriving DecidableEq

namespace Turn

/-- These turns are taken by a participant: beginnings while it is hidden, ends while it is visible.
-/
def taken (visible : Bool) : List Turn → List Turn
  | [] => []
  | turn :: rest =>
      if turn.change.fromVisible = visible then turn :: taken (!visible) rest
      else taken visible rest

/-- This tells whether the participant is visible behind the turns. -/
def outcome (visible : Bool) : List Turn → Bool
  | [] => visible
  | turn :: rest =>
      if turn.change.fromVisible = visible then outcome (!visible) rest else outcome visible rest

/-- What is taken of later turns depends on what the earlier ones have led to. -/
theorem taken_append (visible : Bool) (first second : List Turn) :
    taken visible (first ++ second) =
      taken visible first ++ taken (outcome visible first) second := by
  induction first generalizing visible with
  | nil => rfl
  | cons turn rest ih =>
      rw [List.cons_append, taken, taken, outcome]
      split
      · rw [ih, List.cons_append]
      · exact ih visible

/-- Turns lead on from where earlier turns have led to. -/
theorem outcome_append (visible : Bool) (first second : List Turn) :
    outcome visible (first ++ second) = outcome (outcome visible first) second := by
  induction first generalizing visible with
  | nil => rfl
  | cons turn rest ih =>
      rw [List.cons_append, outcome, outcome]
      split
      · exact ih _
      · exact ih visible

/-- This is the turn of a participant when the named participants are asked for a change. -/
def ofNames (name : String) (names : List String) (change : Change) (mode : Terminator) :
    List Turn :=
  if name ∈ names then [⟨change, mode⟩] else []

section Names

variable (visible : Bool) (name : String) (names : List String) (change : Change)
  (mode : Terminator)

/-- A change that lists a participant is taken if it makes a difference. -/
theorem taken_ofNames :
    taken visible (ofNames name names change mode) =
      if name ∈ names ∧ change.fromVisible = visible then [⟨change, mode⟩] else [] := by
  unfold ofNames
  by_cases named : name ∈ names <;> by_cases able : change.fromVisible = visible <;>
    simp [named, able, taken]

/-- A change that lists a participant brings it to the other state, or leaves it there. -/
theorem outcome_ofNames :
    outcome visible (ofNames name names change mode) =
      if name ∈ names ∧ change.fromVisible = visible then !visible else visible := by
  unfold ofNames
  by_cases named : name ∈ names <;> by_cases able : change.fromVisible = visible <;>
    simp [named, able, outcome]

end Names

/-- Names that are new to a list add their turns to it. -/
theorem ofNames_append {name : String} {earlier names : List String}
    (fresh : ∀ name ∈ names, name ∉ earlier) (change : Change) (mode : Terminator) :
    ofNames name (earlier ++ names) change mode =
      ofNames name earlier change mode ++ ofNames name names change mode := by
  unfold ofNames
  by_cases new : name ∈ names
  · simp [new, fresh name new]
  · simp [new]

end Turn

/-- These turns are asked for by a statement. -/
def Statement.turns (name : String) : Statement → List Turn
  | .define _ => []
  | .enter mentions mode => Turn.ofNames name (mentions.map Mention.name) .enter mode
  | .leave mentions mode => Turn.ofNames name (mentions.map Mention.name) .leave mode
  | .message sender receiver _ _ =>
      let departing := [sender, receiver].filter fun mention => mention.flag == some .depart
      Turn.ofNames name [sender.name, receiver.name] .enter .box ++
        Turn.ofNames name (departing.map Mention.name) .leave .cross
  | .note _ _ mentions _ => Turn.ofNames name (mentions.map Mention.name) .enter .box
  | .mark _ => []
  | .jump _ => []
  | .openBlock _ _ => []
  | .splitBlock _ _ => []
  | .closeBlock => []

/-- These turns are asked of a participant by the statements in their order. -/
def Document.turns (document : Document) (name : String) : List Turn :=
  document.statements.flatMap fun located => located.statement.turns name

/-- These participants are still visible behind the last statement, in the order of their columns.
-/
def Document.remaining (document : Document) : List String :=
  (Column.listed document.mentioned).filter fun name => Turn.outcome false (document.turns name)

/-- These are the beginnings and ends of a participant in a stage by itself. -/
def Stage.turns (name : String) : Stage → List Turn
  | .enter names mode => Turn.ofNames name names .enter mode
  | .leave names mode => Turn.ofNames name names .leave mode
  | _ => []

namespace Stage

variable {stage : Stage}

/-- A mark and a jump bring no turns. -/
theorem turns_of_not_isDrawn (name : String) (quiet : stage.isDrawn = false) :
    stage.turns name = [] := by
  cases stage <;> first | rfl | contradiction

/-- A message and a note bring no turns. -/
theorem turns_of_speaks (name : String) (spoken : stage.speaks = true) :
    stage.turns name = [] := by
  cases stage <;> first | rfl | contradiction

@[simp] theorem turns_change (name : String) (change : Change) (names : List String)
    (mode : Terminator) :
    (change.stage names mode).turns name = Turn.ofNames name names change mode := by
  cases change <;> rfl

end Stage

namespace Assembly

variable {assembly middle next : Assembly} {name : String}

/-- These are the turns that a participant has taken so far. -/
def turns (assembly : Assembly) (name : String) : List Turn :=
  assembly.written.flatMap (Stage.turns name)

/-- This tells whether a participant is visible now. -/
def shows (assembly : Assembly) (name : String) : Bool := assembly.roster.visible.contains name

/-- A participant takes those turns between two assemblies that it can. -/
structure Takes (name : String) (before after : Assembly) (turns : List Turn) : Prop where
  written : after.turns name = before.turns name ++ Turn.taken (before.shows name) turns
  visible : after.shows name = Turn.outcome (before.shows name) turns

/-- Turns are taken one after another. -/
theorem Takes.trans {first second : List Turn} (takes : Takes name assembly middle first)
    (takesOn : Takes name middle next second) : Takes name assembly next (first ++ second) where
  written := by
    rw [takesOn.written, takes.written, takes.visible, Turn.taken_append, List.append_assoc]
  visible := by rw [takesOn.visible, takes.visible, Turn.outcome_append]

/-- Nothing is taken where neither the turns in the stages nor the visible participants change. -/
theorem takes_nothing (same : next.turns name = assembly.turns name)
    (visible : next.roster.visible = assembly.roster.visible) : Takes name assembly next [] where
  written := by rw [same, Turn.taken, List.append_nil]
  visible := by rw [shows, visible, ← shows, Turn.outcome]

/-- The turns depend on the stages that have been written only. -/
theorem turns_of_written (same : next.written = assembly.written) :
    next.turns name = assembly.turns name := by
  rw [turns, same, turns]

/-- A registration begins and ends nobody. -/
theorem takes_register (assembly : Assembly) (names : List String) :
    Takes name assembly (assembly.register names) [] :=
  takes_nothing rfl (assembly.roster.visible_registerAll names)

/-- The turns of those who change are written behind all others. -/
theorem turns_change (replayed : assembly.Replayed) (change : Change) (names : List String)
    (mode : Terminator) :
    (assembly.change change names mode).turns name = assembly.turns name ++
      Turn.ofNames name (assembly.roster.changeable change names) change mode := by
  rcases assembly.change_cases change names mode with ⟨none, same⟩ | ⟨some, _⟩
  · rw [same, none]
    exact (List.append_nil _).symm
  · have front : (assembly.change change names mode).front = assembly.front :=
      front_of_frames (assembly.frames_change change names mode)
    rw [turns, turns, written_eq, written_eq, front]
    rcases replayed.stages_change mode some with apart | ⟨older, earlier, drafted, joined, fresh⟩
    · rw [apart, Stage.walkAll_append, Stage.walkAll_singleton, Stage.walk_change]
      simp
    · rw [drafted, joined, Stage.walkAll_append, Stage.walkAll_append, Stage.walkAll_singleton,
        Stage.walkAll_singleton, Stage.walk_change, Stage.walk_change]
      simp [Turn.ofNames_append fresh]

/-- A change shows or hides exactly those who can undergo it. -/
theorem shows_change (assembly : Assembly) (change : Change) (names : List String)
    (mode : Terminator) :
    (assembly.change change names mode).shows name =
      if name ∈ assembly.roster.changeable change names then !assembly.shows name
      else assembly.shows name := by
  rcases assembly.change_cases change names mode with ⟨none, same⟩ | ⟨_, changed⟩
  · rw [same, none]
    rfl
  · rw [changed, shows, shows]
    by_cases member : name ∈ assembly.roster.changeable change names
    · have visible := (Roster.mem_changeable.mp member).2.2
      rw [if_pos member, visible]
      cases change with
      | enter => simp [Roster.change, Change.fromVisible, member]
      | leave => simp [Roster.change, Change.fromVisible, member]
    · rw [if_neg member]
      cases change with
      | enter => simp [Roster.change, member]
      | leave => simp [Roster.change, member]

/-- A change is one turn of each participant in its list. -/
theorem takes_change (replayed : assembly.Replayed) (free : Column.isReserved name = false)
    (change : Change) (names : List String) (mode : Terminator) :
    Takes name assembly (assembly.change change names mode)
      (Turn.ofNames name names change mode) := by
  have able : name ∈ assembly.roster.changeable change names ↔
      name ∈ names ∧ change.fromVisible = assembly.shows name := by
    rw [Roster.mem_changeable, shows]
    simp [free, eq_comm]
  constructor
  · rw [turns_change replayed, Turn.taken_ofNames, Turn.ofNames]
    simp only [able]
  · rw [shows_change, Turn.outcome_ofNames]
    simp only [able]

/-- A stage that changes nobody brings no turns. -/
theorem takes_place (assembly : Assembly) {stage : Stage} (leaf : stage.walk = [stage])
    (still : stage.turns name = []) : Takes name assembly (assembly.place stage) [] := by
  refine takes_nothing ?_ rfl
  rw [turns, written_place _ leaf, List.flatMap_append, List.flatMap_singleton, still,
    List.append_nil, turns]

/-- Those whom a stage speaks of begin in front of it. -/
theorem takes_speak (replayed : assembly.Replayed) (free : Column.isReserved name = false)
    (names : List String) (stage : Stage) (spoken : stage.speaks = true) :
    Takes name assembly (assembly.speak names stage) (Turn.ofNames name names .enter .box) := by
  have registered : (assembly.register names).Replayed := by
    rw [Replayed, shown_register]
    exact replayed
  have begun := (assembly.takes_register names).trans
    (takes_change registered free .enter names .box)
  have used : Takes name _ (((assembly.register names).change .enter names .box).use names) [] :=
    takes_nothing (turns_of_written (written_use _ _)) rfl
  have placed := begun.trans (used.trans
    (takes_place _ (Stage.walk_of_speaks spoken) (Stage.turns_of_speaks name spoken)))
  rw [List.nil_append, List.append_nil, List.append_nil] at placed
  exact placed

/-- A declaration with a change is one turn of each participant in its list. -/
theorem takes_declare_change (replayed : assembly.Replayed)
    (free : Column.isReserved name = false) {origin : Origin} {command : Command} (change : Change)
    {names : List String} {mode : Terminator}
    (performed : ((assembly.declare origin command names).map fun middle =>
      middle.change change names mode) = .ok next) :
    Takes name assembly next (Turn.ofNames name names change mode) := by
  obtain ⟨middle, declared, rfl⟩ := except_map_eq_ok.mp performed
  obtain ⟨_, rfl⟩ := declare_eq_ok declared
  have registered : (assembly.register names).Replayed := by
    rw [Replayed, shown_register]
    exact replayed
  exact (assembly.takes_register names).trans (takes_change registered free change names mode)

/-- A block that closes takes no turn away, since a dropped one holds none. -/
theorem takes_closeBlock (quiet : assembly.Quiet) {origin : Origin}
    (closed : assembly.closeBlock origin = .ok next) : Takes name assembly next [] := by
  obtain ⟨frame, outer, inside, ⟨_, rfl⟩ | ⟨dead, rfl⟩⟩ := closeBlock_eq_ok closed
  · refine takes_nothing ?_ (assembly.roster.visible_enclose _ _)
    rw [turns, turns, written_keep, written_inside inside, List.flatMap_append,
      List.flatMap_append, List.flatMap_cons]
    rfl
  · refine takes_nothing ?_ rfl
    have still : (Level.walk ⟨frame.closed, assembly.draft⟩).flatMap (Stage.turns name) = [] :=
      List.flatMap_eq_nil_iff.mpr fun stage member =>
        Stage.turns_of_not_isDrawn name (quiet.inside inside dead stage member)
    rw [turns, turns, written_inside inside, List.flatMap_append, still, List.append_nil]

/-- A participant follows a statement as far as it can. -/
theorem takes_perform (moves : Moves {} assembly) (free : Column.isReserved name = false)
    {origin : Origin} {statement : Statement}
    (performed : assembly.perform origin statement = .ok next) :
    Takes name assembly next (statement.turns name) := by
  have replayed := replayed_of_moves moves
  cases statement with
  | define mentions =>
      obtain ⟨_, rfl⟩ := declare_eq_ok performed
      exact assembly.takes_register _
  | enter mentions mode => exact takes_declare_change replayed free .enter performed
  | leave mentions mode => exact takes_declare_change replayed free .leave performed
  | message sender receiver arrow label =>
      obtain rfl := Except.ok.inj performed
      have spoken := takes_speak replayed free [sender.name, receiver.name]
        (.message sender.name receiver.name arrow label) rfl
      have later := replayed_of_moves (moves.trans
        (assembly.moves_speak (.message sender.name receiver.name arrow label) rfl))
      exact spoken.trans (takes_change later free .leave _ .cross)
  | note position style mentions label =>
      obtain rfl := Except.ok.inj performed
      let names := if mentions.isEmpty then position.outerNames else mentions.map Mention.name
      have spoken := takes_speak replayed free names (.note position style names label) rfl
      cases mentions with
      | nil =>
          have absent : name ∉ position.outerNames := by
            intro member
            have outer : ∀ name ∈ position.outerNames, Column.isReserved name = true := by
              cases position <;> decide
            rw [outer name member] at free
            contradiction
          have none : Turn.ofNames name position.outerNames .enter .box = [] := if_neg absent
          have still : Takes name assembly (assembly.note position style [] label)
              (Turn.ofNames name position.outerNames .enter .box) := spoken
          rw [none] at still
          exact still
      | cons mention rest => exact spoken
  | mark mark =>
      obtain rfl := Except.ok.inj performed
      exact (assembly.takes_place rfl rfl).trans (takes_nothing rfl rfl)
  | jump target =>
      rw [jump_eq_ok performed]
      exact assembly.takes_place rfl rfl
  | openBlock mode label =>
      obtain rfl := Except.ok.inj performed
      exact takes_nothing (turns_of_written (assembly.written_openBlock _ _ _)) rfl
  | splitBlock mode label =>
      obtain ⟨frame, outer, inside, rfl⟩ := splitBlock_eq_ok performed
      exact takes_nothing (turns_of_written (written_divide inside _ _)) rfl
  | closeBlock => exact takes_closeBlock (quiet_of_moves moves) performed

/-- A run takes the turns that its statements ask for. -/
theorem takes_run (moves : Moves {} assembly) (free : Column.isReserved name = false)
    {statements : List Located} {last : Assembly} (ran : assembly.run statements = .ok last) :
    Takes name assembly last (statements.flatMap fun located => located.statement.turns name) := by
  induction statements generalizing assembly with
  | nil =>
      obtain rfl := Except.ok.inj ran
      exact takes_nothing rfl rfl
  | cons located rest ih =>
      rw [run_cons] at ran
      obtain ⟨middle, taken, ran⟩ := except_bind_eq_ok.mp ran
      have moved := moves_take taken
      obtain ⟨performed, accepted, rfl⟩ := except_map_eq_ok.mp taken
      have once : Takes name assembly { performed with taken := assembly.taken + 1 }
          (located.statement.turns name) :=
        ⟨(takes_perform moves free accepted).written, (takes_perform moves free accepted).visible⟩
      exact once.trans (ih (moves.trans moved) ran)

/-- Behind a whole document everyone has taken all turns that are asked for. -/
theorem takes_document {document : Document} {last : Assembly}
    (ran : Assembly.run {} document.statements = .ok last)
    (free : Column.isReserved name = false) :
    last.turns name = Turn.taken false (document.turns name) ∧
      last.shows name = Turn.outcome false (document.turns name) := by
  have takes := takes_run .refl free ran
  exact ⟨takes.written, takes.visible⟩

/-- Those who are visible at the end of a document are those who remain. -/
theorem visibleInOrder_eq_remaining {document : Document} {last : Assembly}
    (ran : Assembly.run {} document.statements = .ok last) :
    last.roster.visibleInOrder = document.remaining := by
  have lists : last.roster.participants = Column.listed document.mentioned := lists_document ran
  rw [Roster.visibleInOrder_eq_filter, lists, Document.remaining]
  refine List.filter_congr fun name member => ?_
  exact (takes_document ran (Column.mem_listed.mp member).2).2

/-- Everyone who is visible can end. -/
theorem changeable_visibleInOrder {names : List String} (known : assembly.Known)
    (lists : assembly.Lists names) :
    assembly.roster.changeable .leave assembly.roster.visibleInOrder =
      assembly.roster.visibleInOrder := by
  have distinct : assembly.roster.visibleInOrder.Nodup := by
    rw [Roster.visibleInOrder_eq_filter, lists]
    exact (nodup_eraseDups _).filter _
  refine Roster.changeable_eq_self distinct ?_
  intro name member
  have visible := (Roster.mem_visibleInOrder.mp member).2
  exact ⟨(known name visible).1, List.contains_iff_mem.mpr visible⟩

/-- At the end a participant is asked to end, and does so if it is visible. -/
theorem takes_ended (moves : Moves {} assembly) (free : Column.isReserved name = false)
    (header : Header) :
    Takes name assembly (assembly.ended header) [⟨.leave, header.terminators⟩] := by
  have ended := takes_change (replayed_of_moves moves) free .leave assembly.roster.visibleInOrder
    header.terminators
  have listed (seen : assembly.shows name = true) : name ∈ assembly.roster.visibleInOrder := by
    have visible : name ∈ assembly.roster.visible := List.contains_iff_mem.mp seen
    exact Roster.mem_visibleInOrder.mpr ⟨(known_of_moves moves name visible).2, visible⟩
  cases seen : assembly.shows name with
  | true =>
      rw [Turn.ofNames, if_pos (listed seen)] at ended
      exact ended
  | false =>
      -- Whoever is hidden takes no turn, whether asked for it or not.
      constructor
      · rw [Assembly.ended, ended.written, Turn.taken_ofNames, seen]
        simp [Turn.taken, Change.fromVisible]
      · rw [Assembly.ended, ended.visible, Turn.outcome_ofNames, seen]
        simp [Turn.outcome, Change.fromVisible]

end Assembly

/-- Every participant takes in a diagram exactly the turns that a document asks for and that change
whether it is visible. Those who remain at the end of the document are the last names in the last
stage of the diagram, in the order of their columns. -/
theorem turns_assemble {document : Document} {diagram : Diagram}
    (assembled : document.assemble = .ok diagram) :
    (∀ name, Column.isReserved name = false →
      (Stage.walkAll diagram.stages).flatMap (Stage.turns name) =
        Turn.taken false (document.turns name ++ [⟨.leave, document.header.terminators⟩])) ∧
      document.remaining.Sublist diagram.columns ∧
      (document.remaining ≠ [] → ∃ older earlier, diagram.stages =
        older ++ [.leave (earlier ++ document.remaining) document.header.terminators]) := by
  obtain ⟨last, ran, closed, rfl⟩ := Assembly.assemble_eq_ok assembled
  have moves := Assembly.moves_run ran
  have known := Assembly.known_of_moves moves
  have remain := Assembly.visibleInOrder_eq_remaining ran
  refine ⟨?_, ?_, ?_⟩
  · intro name free
    have outermost : (last.ended document.header).frames = [] :=
      (last.frames_change _ _ _).trans closed
    obtain ⟨turns, shows⟩ := Assembly.takes_document ran free
    have ended := (Assembly.takes_ended moves free document.header).written
    rw [turns, shows] at ended
    rw [Turn.taken_append, ← ended, Assembly.turns,
      Assembly.written_of_frames_eq_nil outermost]
  · have columns := (last.ended document.header).roster.map_name_columns
    rw [Assembly.ended, Assembly.inner_change] at columns
    rw [← remain, Roster.visibleInOrder_eq_filter]
    exact columns ▸ ((List.filter_sublist.trans last.roster.participants_sublist_names).cons _).trans
      (List.sublist_append_left _ _)
  · intro some
    have able : last.roster.changeable .leave last.roster.visibleInOrder = document.remaining := by
      rw [Assembly.changeable_visibleInOrder known (Assembly.lists_document ran), remain]
    have drafted := (Assembly.replayed_of_moves moves).stages_change document.header.terminators
      (able.symm ▸ some)
    rw [able] at drafted
    rcases drafted with apart | ⟨older, earlier, _, joined, _⟩
    · exact ⟨_, [], apart⟩
    · exact ⟨older, earlier, joined⟩

theorem turns_tour :
    ∃ diagram, Document.tour.assemble = .ok diagram ∧
      (∀ name, Column.isReserved name = false →
        (Stage.walkAll diagram.stages).flatMap (Stage.turns name) =
          Turn.taken false (Document.tour.turns name ++
            [⟨.leave, Document.tour.header.terminators⟩])) ∧
      Document.tour.remaining.Sublist diagram.columns ∧
      (Document.tour.remaining ≠ [] → ∃ older earlier, diagram.stages =
        older ++ [.leave (earlier ++ Document.tour.remaining)
          Document.tour.header.terminators]) := by
  have assembled : ∃ diagram, Document.tour.assemble = .ok diagram := ⟨_, rfl⟩
  obtain ⟨diagram, assembled⟩ := assembled
  exact ⟨diagram, assembled, turns_assemble assembled⟩

end Lifeline
