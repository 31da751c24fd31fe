import Lifeline.Proofs.Ledger.Agreement

/-! No number that a document leads to is ever outside of its list. -/

namespace Lifeline

/-- A ledger is intact if its order lists entered columns once each, from the left outer column to
the right one, and misses edges at most. -/
structure Ledger.Intact (ledger : Ledger) : Prop where
  distinct : ledger.order.Nodup
  first : ∃ number, ledger.order.head? = some number ∧
    ledger.entries[number]? = some ⟨Side.left.bracket, .outer, false⟩
  last : ∃ number, ledger.order.getLast? = some number ∧
    ledger.entries[number]? = some ⟨Side.right.bracket, .outer, false⟩
  entered : ∀ number ∈ ledger.order, ∃ entry, ledger.entries[number]? = some entry
  listed : ∀ (number : Nat) (entry : LedgerEntry), ledger.entries[number]? = some entry →
    entry.kind ≠ .edge → number ∈ ledger.order ∧ ledger.index.lookup entry.name = some number
  indexed : ∀ name number, ledger.index.lookup name = some number →
    ∃ entry, ledger.entries[number]? = some entry ∧ entry.name = name ∧ entry.kind ≠ .edge
  shown : ∀ (number : Nat) (entry : LedgerEntry), ledger.entries[number]? = some entry →
    entry.visible = true → entry.kind = .participant

/-- A ledger reads back if the names that are taken out of it are those of the numbers in its order.
-/
def Ledger.ReadsBack (ledger : Ledger) : Prop :=
  ∃ names, ledger.names = .ok names ∧ ledger.order.mapM ledger.name = .ok names

/-- This is what the columns have been entered as. -/
def Ledger.registered (ledger : Ledger) : List (String × ColumnKind) :=
  ledger.entries.map fun entry => (entry.name, entry.kind)

namespace Bay

/-- These are the stages in the open blocks and in the nest inside of them, in document order. -/
def walk (nest : Nest) : List Bay → List Stage
  | [] => Stage.walkAll nest.stages
  | bay :: outer =>
      walk bay.outer outer ++ (Stage.walkSections bay.closed ++ Stage.walkAll nest.stages)

end Bay

namespace Work

/-- The innermost nest comes first. -/
def nests (work : Work) : List Nest := work.nest :: work.bays.map Bay.outer

/-- These stages have been written so far. -/
def written (work : Work) : List Stage := Bay.walk work.nest work.bays

/-- A work is intact if its ledger is, every edge in the order belongs to a block that has been
closed and kept, and whatever is used has a place and leaves something on the page. -/
structure Intact (work : Work) : Prop where
  ledger : work.ledger.Intact
  edges : ∀ number ∈ work.ledger.order, ∀ entry, work.ledger.entries[number]? = some entry →
    entry.kind = .edge → ∃ block side sections, entry.name = (Column.edge block side).name ∧
      block < work.blocks ∧ (∀ bay ∈ work.bays, bay.number ≠ block) ∧
      .block (Column.edge block .left).name (Column.edge block .right).name sections ∈ work.written
  used : ∀ nest ∈ work.nests, ∀ number ∈ nest.used, number ∈ work.ledger.order ∧
    ∃ entry, work.ledger.entries[number]? = some entry ∧ entry.kind ≠ .outer
  live : ∀ nest ∈ work.nests, nest.used ≠ [] → nest.live = true

/-- While a block closes, its edges have been entered but have no place. They span the whole diagram
only if nothing has been used in the block. -/
structure Closing (work : Work) (bay : Bay) : Prop where
  ledger : (work.enterEdges bay).1.Intact
  order : (work.enterEdges bay).1.order = work.ledger.order
  left : (work.enterEdges bay).1.entries[(work.enterEdges bay).2.1]? =
    some ⟨(Column.edge bay.number .left).name, .edge, false⟩
  right : (work.enterEdges bay).1.entries[(work.enterEdges bay).2.2]? =
    some ⟨(Column.edge bay.number .right).name, .edge, false⟩
  unplaced : (work.enterEdges bay).2.1 ∉ work.ledger.order ∧
    (work.enterEdges bay).2.2 ∉ work.ledger.order
  spans : Ledger.placed (work.enterEdges bay).1.order work.nest.used = [] → work.nest.used = []

end Work

open Ledger (Refers Marks Keeps)

variable {known : List Column}

/-- A column that is no edge is what its name stands for. -/
theorem Roster.Proper.named_name {roster : Roster} (proper : roster.Proper) {column : Column}
    (present : column ∈ roster.columns) (kind : column.kind ≠ .edge) :
    Column.named column.name = column := by
  cases column with
  | outer side => cases side <;> rfl
  | participant name =>
      have inner := Roster.participant_mem_columns.mp present
      exact Column.named_eq_participant (proper.free name (Roster.mem_participants.mpr inner))
  | edge block side => exact absurd rfl kind

namespace Ledger

variable {ledger : Ledger} {roster : Roster} {number : Nat} {entry : LedgerEntry}

/-- Every entry is that of a column. -/
theorem Shows.exists_column {columns : List Column} {visible : String → Bool}
    (shows : ledger.Shows known columns visible) (stands : ledger.entries[number]? = some entry) :
    ∃ column, known[number]? = some column ∧ column.entry visible = entry := by
  rw [shows.entries, List.getElem?_map] at stands
  exact Option.map_eq_some_iff.mp stands

/-- Where every number has a place, no place is taken only if there is no number. -/
theorem eq_nil_of_placed_eq_nil {order used : List Nat} (all : ∀ number ∈ used, number ∈ order)
    (none : placed order used = []) : used = [] := by
  rw [List.eq_nil_iff_forall_not_mem] at none ⊢
  intro number member
  obtain ⟨place, stands⟩ := Option.isSome_iff_exists.mp
    (List.isSome_idxOf?.mpr (all number member))
  exact none (place, number) (mem_placed.mpr ⟨member, stands⟩)

/-- A ledger that shows a roster reads back, since no column stands at two places. -/
theorem Shows.readsBack (shows : ledger.Shows known roster.columns roster.visible.contains)
    (proper : roster.Proper) : ledger.ReadsBack :=
  ⟨_, shows.names_eq proper.nodup_columns, shows.mapM_name_eq shows.order⟩

/-- The columns have been entered by their names and kinds. -/
theorem Shows.registered_eq {columns : List Column} {visible : String → Bool}
    (shows : ledger.Shows known columns visible) :
    ledger.registered = known.map fun column => (column.name, column.kind) := by
  rw [registered, shows.entries, List.map_map]
  rfl

/-- A ledger is intact if it shows a roster and has left out nothing but edges. -/
theorem Shows.intact (shows : ledger.Shows known roster.columns roster.visible.contains)
    (proper : roster.Proper)
    (placed : ∀ column ∈ known, column.kind ≠ .edge → column ∈ roster.columns) :
    ledger.Intact where
  distinct := shows.order.nodup proper.nodup_columns
  first := by
    have here : roster.columns[0]? = some (.outer .left) := rfl
    obtain ⟨number, stands, found⟩ := shows.exists_number here
    exact ⟨number, by rw [List.head?_eq_getElem?, stands], shows.getElem?_entries found⟩
  last := by
    have here : roster.columns[roster.columns.length - 1]? = some (.outer .right) := by
      simp [Roster.columns]
    obtain ⟨number, stands, found⟩ := shows.exists_number here
    refine ⟨number, ?_, shows.getElem?_entries found⟩
    rw [List.getLast?_eq_getElem?, shows.order.length_eq, stands]
  entered number member := by
    obtain ⟨column, _, found⟩ := shows.order.marks.sound number member
    exact ⟨_, shows.getElem?_entries found⟩
  listed number entry stands kind := by
    obtain ⟨column, found, rfl⟩ := shows.exists_column stands
    have present := placed column (List.mem_of_getElem? found) kind
    refine ⟨(shows.order.mem_iff shows.distinct found).mpr present, ?_⟩
    rw [shows.index, found]
    exact congrArg some (proper.named_name present kind).symm
  indexed name number listed := by
    have found := (shows.index name number).mp listed
    refine ⟨_, shows.getElem?_entries found, Column.name_named name, ?_⟩
    intro edge
    cases named : Column.named name with
    | edge block side => exact Column.named_ne_edge name block side named
    | _ => simp [named, Column.entry, Column.kind] at edge
  shown number entry stands visible := by
    obtain ⟨column, _, rfl⟩ := shows.exists_column stands
    cases column <;> simp_all [Column.entry, Column.isShown, Column.kind]

end Ledger

namespace Assembly

variable {assembly : Assembly}

/-- A level at which something has been used leaves something on the page. -/
theorem Quiet.live_of_used (quiet : assembly.Quiet) (accounted : assembly.Accounted) {level : Level}
    (member : level ∈ assembly.levels) (filled : level.draft.used ≠ []) :
    level.draft.live = true := by
  obtain ⟨column, used⟩ := List.exists_mem_of_ne_nil _ filled
  obtain ⟨stage, walked, needs⟩ := (accounted level member column).mp used
  by_contra dead
  have silent := quiet level member (by simpa using dead) stage walked
  exact Stage.not_needs_of_not_isDrawn silent needs

/-- The edges among the columns are those of blocks that have been kept. -/
theorem exists_block_of_edge {block : Nat} {side : Side} (moves : Moves {} assembly)
    (kept : Column.edge block side ∈ assembly.roster.inner) :
    ∃ sections, .block (Column.edge block .left).name (Column.edge block .right).name sections ∈
      assembly.written := by
  have edge := (sound_of_moves moves).mem_edges_iff.mpr
    ⟨(block, side), Roster.mem_edges.mpr kept, rfl⟩
  obtain ⟨stage, written, named⟩ := List.mem_flatMap.mp edge
  cases stage with
  | block left right sections =>
      obtain ⟨number, rfl, rfl, _, _⟩ :=
        enclosing_of_moves moves _ (List.mem_filter.mpr ⟨written, rfl⟩)
      have same : number = block := by
        rcases List.mem_pair.mp named with left | right
        · have pair := @Column.name_edge_injective (block, side) (number, .left) left
          exact (Prod.mk.inj pair).1.symm
        · have pair := @Column.name_edge_injective (block, side) (number, .right) right
          exact (Prod.mk.inj pair).1.symm
      exact ⟨sections, same ▸ written⟩
  | _ => exact absurd named List.not_mem_nil

end Assembly

section Around

variable {bays : List Bay} {frames : List Frame} {nest : Nest} {draft : Draft}

/-- A nest and those around it follow the drafts at their levels. -/
theorem Nest.Follows.exists_level (follows : nest.Follows known draft)
    (around : bays.Forall₂ (Bay.Follows known) frames) :
    ∀ other ∈ nest :: bays.map Bay.outer,
      ∃ level ∈ Level.around draft frames, other.Follows known level.draft := by
  intro other member
  induction around generalizing nest draft with
  | nil =>
      rw [List.mem_singleton.mp member]
      exact ⟨_, List.mem_cons_self, follows⟩
  | cons bay _ ih =>
      obtain ⟨outer⟩ := bay
      rcases List.mem_cons.mp member with rfl | member
      · exact ⟨_, List.mem_cons_self, follows⟩
      · obtain ⟨level, inside, otherFollows⟩ := ih outer member
        exact ⟨level, List.mem_cons_of_mem _ inside, otherFollows⟩

/-- A nest and those around it hold the stages of the drafts at their levels. -/
theorem Nest.Follows.walk_eq (follows : nest.Follows known draft)
    (around : bays.Forall₂ (Bay.Follows known) frames) :
    Bay.walk nest bays = Level.walkAll (Level.around draft frames) := by
  induction around generalizing nest draft with
  | nil =>
      rw [Bay.walk, follows.stages_eq]
      rfl
  | cons bay _ ih =>
      obtain ⟨outer⟩ := bay
      rw [Bay.walk, ih outer, follows.stages_eq]
      rfl

end Around

namespace Work.Follows

variable {work : Work} {assembly : Assembly}

/-- A nest of a work follows the draft at a level of the assembly. -/
theorem exists_level {nest : Nest} (follows : work.Follows known assembly)
    (member : nest ∈ work.nests) : ∃ level ∈ assembly.levels, nest.Follows known level.draft :=
  follows.nest.exists_level follows.bays nest member

/-- A work has written what the assembly has. -/
theorem written_eq (follows : work.Follows known assembly) : work.written = assembly.written :=
  follows.nest.walk_eq follows.bays

/-- An open block of a work is open in the assembly. -/
theorem exists_frame {bay : Bay} (follows : work.Follows known assembly)
    (opened : bay ∈ work.bays) : ∃ draft, bay.frame draft ∈ assembly.frames := by
  obtain ⟨frame, inside, ⟨_⟩⟩ := exists_of_mem_forall₂ follows.bays opened
  exact ⟨_, inside⟩

/-- A number has a place exactly if its column is in the roster. -/
theorem mem_order_iff {number : Nat} {column : Column} (follows : work.Follows known assembly)
    (found : known[number]? = some column) :
    number ∈ work.ledger.order ↔ column ∈ assembly.roster.columns :=
  follows.ledger.shows.order.mem_iff follows.ledger.shows.distinct found

/-- Whatever a document leads to is intact. -/
theorem intact (follows : work.Follows known assembly) (moves : Assembly.Moves {} assembly) :
    work.Intact where
  ledger := follows.ledger.shows.intact (Assembly.proper_of_moves moves)
    fun column member _ => follows.ledger.placed column member
  edges number member entry stands kind := by
    obtain ⟨column, found, rfl⟩ := follows.ledger.shows.exists_column stands
    have present := (follows.mem_order_iff found).mp member
    cases column with
    | outer side => contradiction
    | participant name => contradiction
    | edge block side =>
        have kept : Column.edge block side ∈ assembly.roster.inner := by
          simpa [Roster.columns] using present
        have numbered := (Assembly.sound_of_moves moves).numbered
        obtain ⟨sections, written⟩ := Assembly.exists_block_of_edge moves kept
        refine ⟨block, side, sections, rfl, ?_, ?_, follows.written_eq ▸ written⟩
        · rw [follows.blocks]
          exact numbered.2 (block, side) (List.mem_append_right _ (Roster.mem_edges.mpr kept))
        · rintro bay opened rfl
          obtain ⟨draft, inside⟩ := follows.exists_frame opened
          exact numbered.notMem_inner_of_mem inside side kept
  used nest member number inside := by
    obtain ⟨level, around, nestFollows⟩ := follows.exists_level member
    obtain ⟨column, used, found⟩ := nestFollows.used.sound number inside
    have inner := Assembly.mem_inner_of_level (Assembly.sound_of_moves moves)
      (Assembly.accounted_of_moves moves) around column used
    refine ⟨(follows.mem_order_iff found).mpr (by simp [Roster.columns, inner]), _,
      follows.ledger.shows.getElem?_entries found, fun outer => ?_⟩
    obtain ⟨side, rfl⟩ := Column.kind_eq_outer_iff.mp outer
    exact (Assembly.sound_of_moves moves).framed side inner
  live nest member filled := by
    obtain ⟨level, around, nestFollows⟩ := follows.exists_level member
    obtain ⟨number, inside⟩ := List.exists_mem_of_ne_nil _ filled
    obtain ⟨column, used, _⟩ := nestFollows.used.sound number inside
    rw [nestFollows.live]
    exact (Assembly.quiet_of_moves moves).live_of_used (Assembly.accounted_of_moves moves) around
      (List.ne_nil_of_mem used)

/-- The edges of an open block can be entered, and the ledger stays intact. -/
theorem closing {bay : Bay} (follows : work.Follows known assembly)
    (moves : Assembly.Moves {} assembly) (opened : bay ∈ work.bays) : work.Closing bay := by
  obtain ⟨draft, inside⟩ := follows.exists_frame opened
  have fresh (side : Side) : Column.edge bay.number side ∉ assembly.roster.columns := by
    have inner : Column.edge bay.number side ∉ assembly.roster.inner :=
      (Assembly.sound_of_moves moves).numbered.notMem_inner_of_mem inside side
    simpa [Roster.columns] using inner
  obtain ⟨ledger, entered, shows, left, right⟩ := follows.enterEdges_eq fresh
  have order : ledger.order = work.ledger.order := by
    have same : (work.enterEdges bay).1.order = work.ledger.order := rfl
    rwa [entered] at same
  have unplaced {number : Nat} {side : Side}
      (found : (known ++ bay.edges)[number]? = some (.edge bay.number side)) :
      number ∉ work.ledger.order := by
    rw [← order, shows.order.mem_iff shows.distinct found]
    exact fresh side
  constructor <;> rw [entered]
  · refine shows.intact (Assembly.proper_of_moves moves) fun column member kind => ?_
    rcases List.mem_append.mp member with old | new
    · exact follows.ledger.placed column old
    · rcases List.mem_pair.mp new with rfl | rfl <;> exact absurd rfl kind
  · exact order
  · exact shows.getElem?_entries left
  · exact shows.getElem?_entries right
  · exact ⟨unplaced left, unplaced right⟩
  · dsimp only
    rw [order]
    exact Ledger.eq_nil_of_placed_eq_nil fun number used =>
      ((follows.intact moves).used work.nest List.mem_cons_self number used).1

/-- What has been entered stays as it was when more columns are entered. -/
theorem registered_prefix {later : Work} {more : List Column} {after : Assembly}
    (follows : work.Follows known assembly) (laterFollows : later.Follows (known ++ more) after) :
    work.ledger.registered <+: later.ledger.registered := by
  rw [follows.ledger.shows.registered_eq, laterFollows.ledger.shows.registered_eq, List.map_append]
  exact List.prefix_append _ _

end Work.Follows

namespace Work

/-- A run of statements is followed by the work that it leads to. -/
theorem exists_follows {spare : Nat → Except Slip Nat} {statements : List Located} {work : Work}
    (ran : Work.run spare {} statements = .ok work) :
    ∃ known assembly, work.Follows known assembly ∧ Assembly.Moves {} assembly := by
  rcases (follows_start.run_agrees spare .refl statements).cases with
    ⟨fault, stopped, _⟩ | ⟨reached, assembly, more, ranToo, ranByNames, follows⟩
  · rw [ran] at stopped
    contradiction
  · obtain rfl := Except.ok.inj (ran.symm.trans ranToo)
    exact ⟨_, assembly, follows, Assembly.moves_run ranByNames⟩

/-- Whatever statements lead to is intact, also while a block closes and when everyone has ended,
and the names that have been entered are those that come out at the end. The diagram is the one that
is made without numbers, so that no number or place is outside and the spare, which may be anything,
is not asked. -/
theorem intact_throughout (spare : Nat → Except Slip Nat) (statements : List Located) :
    (∀ header, Document.assembleByNumbers spare ⟨header, statements⟩ =
        (Document.assemble ⟨header, statements⟩).mapError Slip.fault) ∧
      Work.run spare {} statements ≠ .error .outside ∧
      ∀ work, Work.run spare {} statements = .ok work →
        work.Intact ∧ work.ledger.ReadsBack ∧
        (∀ bay outer, work.bays = bay :: outer → work.Closing bay) ∧
        (∀ more later, Work.run spare work more = .ok later →
          work.ledger.registered <+: later.ledger.registered) ∧
        ∀ header, ∃ last, work.ended header = .ok last ∧ last.Intact ∧ last.ledger.ReadsBack ∧
          work.ledger.registered <+: last.ledger.registered := by
  refine ⟨fun header => Document.assembleByNumbers_eq spare ⟨header, statements⟩, ?_, ?_⟩
  · intro outside
    have agrees := (follows_start.run_agrees spare .refl statements).cases
    rw [outside] at agrees
    rcases agrees with ⟨fault, stopped, _⟩ | ⟨reached, _, _, ran, _, _⟩
    · exact absurd (Except.error.inj stopped) (by simp)
    · contradiction
  intro work ran
  obtain ⟨known, assembly, follows, moves⟩ := exists_follows ran
  have proper := Assembly.proper_of_moves moves
  refine ⟨follows.intact moves, follows.ledger.shows.readsBack proper, ?_, ?_, ?_⟩
  · intro bay outer inside
    exact follows.closing moves (inside ▸ List.mem_cons_self)
  · intro more later ranOn
    rcases (follows.run_agrees spare moves more).cases with
      ⟨fault, stopped, _⟩ | ⟨reached, after, others, ranToo, _, laterFollows⟩
    · rw [ranOn] at stopped
      contradiction
    · obtain rfl := Except.ok.inj (ranOn.symm.trans ranToo)
      exact follows.registered_prefix laterFollows
  · intro header
    obtain ⟨last, ended, lastFollows⟩ := follows.ended_eq proper header
    have lastMoves : Assembly.Moves {} (assembly.ended header) :=
      moves.tail (.change assembly .leave _ _ (by simp))
    rw [← List.append_nil known] at lastFollows
    exact ⟨last, ended, lastFollows.intact lastMoves,
      lastFollows.ledger.shows.readsBack (Assembly.proper_of_moves lastMoves),
      follows.registered_prefix lastFollows⟩

theorem intact_throughout_tour :
    ∃ work bay outer later, Work.run .ok {} (Document.tour.statements.take 6) = .ok work ∧
      work.bays = bay :: outer ∧ work.nest.used ≠ [] ∧
      Work.run .ok work (Document.tour.statements.drop 6) = .ok later ∧
      work.Intact ∧ work.Closing bay ∧ work.ledger.registered <+: later.ledger.registered := by
  have reaches : ((Work.run .ok {} (Document.tour.statements.take 6)).toOption.map fun work =>
      !work.bays.isEmpty && !work.nest.used.isEmpty &&
        (Work.run .ok work (Document.tour.statements.drop 6)).toOption.isSome) = some true := by
    decide +kernel
  obtain ⟨work, found, facts⟩ := Option.map_eq_some_iff.mp reaches
  have ran := except_toOption_eq_some.mp found
  simp only [Bool.and_eq_true, Bool.not_eq_true', List.isEmpty_eq_false_iff] at facts
  obtain ⟨⟨inside, used⟩, goesOn⟩ := facts
  obtain ⟨bay, outer, bays⟩ := List.exists_cons_of_ne_nil inside
  obtain ⟨later, ranOn⟩ := Option.isSome_iff_exists.mp goesOn
  have laterRan := except_toOption_eq_some.mp ranOn
  obtain ⟨intact, _, closing, registered, _⟩ :=
    (intact_throughout .ok (Document.tour.statements.take 6)).2.2 work ran
  exact ⟨work, bay, outer, later, ran, bays, used, laterRan, intact, closing bay outer bays,
    registered _ later laterRan⟩

end Work

end Lifeline
