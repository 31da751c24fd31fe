import Lifeline.Proofs.Faults
import Lifeline.Proofs.KeptBlocks

/-! Whatever is added behind a document leaves its diagram or its fault as it is. -/

namespace Lifeline

/-- A change reaches no further back than to the last stage. -/
theorem Change.Extends.settled {change : Change} {names : List String} {mode : Terminator}
    {before after : List Stage} (extended : change.Extends names mode before after) :
    before.dropLast <+: after.dropLast := by
  rcases extended with rfl | ⟨older, earlier, rfl, rfl⟩
  · rw [List.dropLast_concat]
    exact List.dropLast_prefix before
  · rw [List.dropLast_concat, List.dropLast_concat]

/-- The stage of a change, or the last stage that it has joined, is one of the last two stages. -/
theorem Change.Extends.reach {change : Change} {names : List String}
    {mode : Terminator} {before after : List Stage}
    (extended : change.Extends names mode before after) :
    after.dropLast.dropLast <+: before.dropLast := by
  rcases extended with rfl | ⟨older, earlier, rfl, rfl⟩
  · rw [List.dropLast_concat]
  · rw [List.dropLast_concat, List.dropLast_concat]
    exact List.dropLast_prefix older

/-- All stages of a draft but the last one stay when a stage is pushed. -/
theorem Draft.dropLast_prefix_push (draft : Draft) (stage : Stage) :
    draft.stages.dropLast <+: (draft.push stage).stages.dropLast := by
  rw [Draft.stages_push, List.dropLast_concat]
  exact List.dropLast_prefix draft.stages

/-- This is the draft around all of the frames, where the given one stands inside of them. -/
def Frame.outermost (draft : Draft) : List Frame → Draft
  | [] => draft
  | frame :: outer => outermost frame.outer outer

namespace Assembly

variable {assembly next : Assembly}

/-- This is the draft of the diagram itself, around all open blocks. -/
def outermost (assembly : Assembly) : Draft := Frame.outermost assembly.draft assembly.frames

/-- Outside of all blocks, the outermost draft is the innermost one. -/
theorem outermost_of_frames_eq_nil (closed : assembly.frames = []) :
    assembly.outermost = assembly.draft := by
  rw [outermost, closed, Frame.outermost]

/-- The draft of a block is not the outermost one. -/
theorem outermost_of_inside {frame : Frame} {outer : List Frame}
    (inside : assembly.frames = frame :: outer) :
    assembly.outermost = (assembly.drop frame outer).outermost := by
  rw [outermost, inside, Frame.outermost]
  rfl

/-- Stages are settled if they stand in front of the last stage of the outermost draft. -/
def Settled (front : List Stage) (assembly : Assembly) : Prop :=
  front <+: assembly.outermost.stages.dropLast

/-- As long as the frames stay, the outermost draft changes only where it is the current one. -/
theorem Settled.of_frames {front : List Stage} (settled : assembly.Settled front)
    (same : next.frames = assembly.frames)
    (grown : assembly.draft.stages.dropLast <+: next.draft.stages.dropLast) :
    next.Settled front := by
  cases frames : assembly.frames with
  | nil =>
      rw [Settled, outermost_of_frames_eq_nil frames] at settled
      rw [Settled, outermost_of_frames_eq_nil (same.trans frames)]
      exact settled.trans grown
  | cons frame outer =>
      rw [Settled, outermost_of_inside frames] at settled
      rw [Settled, outermost_of_inside (same.trans frames)]
      exact settled

/-- A dropped block changes nothing around it. -/
theorem Settled.drop {front : List Stage} {frame : Frame} {outer : List Frame}
    (settled : assembly.Settled front) (inside : assembly.frames = frame :: outer) :
    (assembly.drop frame outer).Settled front := by
  rw [Settled, outermost_of_inside inside] at settled
  exact settled

/-- No move touches the stages that are settled. -/
theorem settled_of_move {front : List Stage} (before after : Assembly) (move : Move before after)
    (settled : before.Settled front) : after.Settled front := by
  cases move with
  | register names => exact settled
  | change change names mode known =>
      rcases before.change_cases change names mode with ⟨_, same⟩ | ⟨_, changed⟩
      · rw [same]
        exact settled
      · rw [changed]
        exact settled.of_frames rfl ((before.draft.use
          ((before.roster.changeable change names).map Column.named)).extends_change change
            _ mode).settled
  | speak stage spoken known present =>
      exact settled.of_frames rfl ((before.use stage.about).draft.dropLast_prefix_push stage)
  | steer stage quiet => exact settled.of_frames rfl (before.draft.dropLast_prefix_push stage)
  | record markers taken => exact settled
  | openBlock origin mode label => exact settled
  | divide frame outer mode label inside => exact settled.drop inside
  | keep frame outer inside live =>
      exact (settled.drop inside).of_frames rfl (Draft.dropLast_prefix_push _ _)
  | drop frame outer inside quiet => exact settled.drop inside

/-- Whatever is settled stays so. -/
theorem settled_of_moves {front : List Stage} (moves : Moves assembly next)
    (settled : assembly.Settled front) : next.Settled front :=
  moves.keeps settled_of_move settled

/-- Columns stay, and no two of them change places. -/
theorem sublist_inner_of_moves (moves : Moves assembly next) :
    assembly.roster.inner.Sublist next.roster.inner := by
  apply moves.keeps
  · intro before after move grown
    exact grown.trans (sublist_inner_of_move before after move)
  · exact List.Sublist.refl _

/-- The end of a document leaves its columns alone. -/
theorem sublist_columns_ended (grown : assembly.roster.inner.Sublist next.roster.inner)
    (header : Header) :
    ((assembly.ended header).roster.columns.map Column.name).Sublist
      ((next.ended header).roster.columns.map Column.name) := by
  rw [ended, ended, columns_change, columns_change, Roster.columns, Roster.columns]
  exact ((grown.cons_cons _).append_right _).map Column.name

/-- The end of a document adds one stage at most and may add to the last one. -/
theorem ended_cases (assembly : Assembly) (header : Header) :
    assembly.ended header = assembly ∨
      ∃ names, Change.leave.Extends names header.terminators assembly.draft.stages
        (assembly.ended header).draft.stages := by
  rcases assembly.change_cases .leave assembly.roster.visibleInOrder header.terminators with
    ⟨_, same⟩ | ⟨_, changed⟩
  · exact Or.inl same
  · right
    rw [ended, changed]
    exact ⟨_, Draft.extends_change _ _ _ _⟩

/-- The end of a document leaves all stages but the last one where they are. -/
theorem dropLast_prefix_ended (assembly : Assembly) (header : Header) :
    assembly.draft.stages.dropLast <+: (assembly.ended header).draft.stages.dropLast := by
  rcases assembly.ended_cases header with same | ⟨names, extended⟩
  · rw [same]
  · exact extended.settled

/-- The end of a document adds one stage at most. -/
theorem dropLast_dropLast_ended (assembly : Assembly) (header : Header) :
    (assembly.ended header).draft.stages.dropLast.dropLast <+: assembly.draft.stages.dropLast := by
  rcases assembly.ended_cases header with same | ⟨names, extended⟩
  · rw [same]
    exact List.dropLast_prefix _
  · exact extended.reach

/-- A run counts its statements. -/
theorem taken_run {statements : List Located} (ran : assembly.run statements = .ok next) :
    next.taken = assembly.taken + statements.length := by
  induction statements generalizing assembly with
  | nil =>
      obtain rfl := Except.ok.inj ran
      rfl
  | cons located rest ih =>
      rw [run_cons] at ran
      obtain ⟨middle, taken, ran⟩ := except_bind_eq_ok.mp ran
      obtain ⟨performed, accepted, rfl⟩ := except_map_eq_ok.mp taken
      rw [ih ran, List.length_cons, Nat.add_right_comm, Nat.add_assoc]

end Assembly

namespace Scan

/-- A complaint is about the statement that comes next. -/
theorem origin_of_complaint {scan : Scan} {origin : Origin} {statement : Statement}
    {finding : Finding} (complaint : scan.complaint? origin statement = some finding) :
    finding.origin = origin := by
  have blamed (mentions : List Mention)
      (reserved : complaint?.reserved origin mentions = some finding) :
      finding.origin = origin := by
    obtain ⟨_, same⟩ := Option.ite_none_right_eq_some.mp reserved
    rw [← Option.some.inj same]
  cases statement with
  | define mentions => exact blamed mentions complaint
  | enter mentions mode => exact blamed mentions complaint
  | leave mentions mode => exact blamed mentions complaint
  | jump target =>
      obtain ⟨_, same⟩ := Option.ite_none_left_eq_some.mp complaint
      rw [← Option.some.inj same]
  | splitBlock mode label =>
      rw [complaint?] at complaint
      split at complaint
      · rw [← Option.some.inj complaint]
      · obtain ⟨_, same⟩ := Option.ite_none_left_eq_some.mp complaint
        rw [← Option.some.inj same]
  | closeBlock =>
      obtain ⟨_, same⟩ := Option.ite_none_right_eq_some.mp complaint
      rw [← Option.some.inj same]
  | message sender receiver arrow label => contradiction
  | note position style mentions label => contradiction
  | mark name => contradiction
  | openBlock mode label => contradiction

/-- A block is open if it was open before or is opened by the statement. -/
theorem opened_after {scan : Scan} {origin : Origin} {statement : Statement}
    {block : BlockMode × Origin} (member : block ∈ (scan.after origin statement).opened) :
    block ∈ scan.opened ∨ block.2 = origin := by
  cases statement with
  | openBlock mode label =>
      rcases List.mem_cons.mp member with rfl | old
      · exact Or.inr rfl
      · exact Or.inl old
  | closeBlock => exact Or.inl (List.mem_of_mem_tail member)
  | _ => exact Or.inl member

/-- A scan blames a statement that it has still to see or a block that is open already. -/
theorem le_number_of_verdict {scan : Scan} {least number : Nat} {statements : List Located}
    {finding : Finding} (found : scan.verdict number statements = some finding)
    (opened : ∀ block ∈ scan.opened, least ≤ block.2.number) (later : least ≤ number) :
    least ≤ finding.origin.number := by
  induction statements generalizing scan number with
  | nil =>
      obtain ⟨block, innermost, rfl⟩ := Option.map_eq_some_iff.mp found
      exact opened block (List.mem_of_head? innermost)
  | cons located rest ih =>
      rw [verdict] at found
      split at found
      · next blamed complaint =>
          obtain rfl := Option.some.inj found
          rw [origin_of_complaint complaint]
          exact later
      · refine ih found ?_ (Nat.le_succ_of_le later)
        intro block member
        rcases opened_after member with old | new
        · exact opened block old
        · rw [new]
          exact later

end Scan

namespace Assembly

/-- Where no block is open, a fault of what comes next lies in what comes next. -/
theorem taken_lt_of_fault {assembly : Assembly} (closed : assembly.frames = [])
    {statements : List Located} {header : Header} {fault : Fault}
    (failed : ((assembly.run statements).bind fun last => last.finish header) = .error fault) :
    assembly.taken < fault.finding.origin.number := by
  have scanned : assembly.Scanned ⟨[], assembly.markers.toFinset⟩ := ⟨by rw [closed]; rfl, rfl⟩
  have decided := run_scanned scanned statements header
  split at decided
  · next finding found =>
      obtain ⟨other, failedToo, rfl⟩ := decided
      obtain rfl : other = fault := Except.error.inj (failedToo.symm.trans failed)
      exact Scan.le_number_of_verdict found (fun _ none => absurd none List.not_mem_nil)
        (Nat.le_refl _)
  · obtain ⟨diagram, made⟩ := decided
    rw [failed] at made
    contradiction

end Assembly

/-- If both a document and the document that goes on behind it make diagrams, then the columns of
the first keep their order, and its stages stay except for the last two. A fault that does not lie
in the missing end of a block stays the same. And if only the shorter document makes a diagram, then
the fault of the other one is blamed on one of the statements that have been added. -/
theorem growth_assemble (header : Header) (first more : List Located) :
    (∀ small large, Document.assemble ⟨header, first⟩ = .ok small →
      Document.assemble ⟨header, first ++ more⟩ = .ok large →
        small.columns.Sublist large.columns ∧
          small.stages.dropLast.dropLast <+: large.stages) ∧
    (∀ fault, Document.assemble ⟨header, first⟩ = .error fault →
      fault.diagnostic.code ≠ some .unclosedBlock →
        Document.assemble ⟨header, first ++ more⟩ = .error fault) ∧
    (∀ small fault, Document.assemble ⟨header, first⟩ = .ok small →
      Document.assemble ⟨header, first ++ more⟩ = .error fault →
        ∃ number reason, first.length < number ∧
          fault.diagnostic.message =
            reason ++ (" (statement " ++ toString number ++ ")")) := by
  refine ⟨?_, ?_, ?_⟩
  · intro small large assembled assembledMore
    obtain ⟨last, ran, closed, rfl⟩ := Assembly.assemble_eq_ok assembled
    obtain ⟨final, ranMore, closedMore, rfl⟩ := Assembly.assemble_eq_ok assembledMore
    rw [Assembly.run_append, ran] at ranMore
    have moves : Assembly.Moves last final := Assembly.moves_run ranMore
    refine ⟨Assembly.sublist_columns_ended (Assembly.sublist_inner_of_moves moves) header, ?_⟩
    have settled : last.Settled last.draft.stages.dropLast := by
      rw [Assembly.Settled, Assembly.outermost_of_frames_eq_nil closed]
    have still := Assembly.settled_of_moves moves settled
    rw [Assembly.Settled, Assembly.outermost_of_frames_eq_nil closedMore] at still
    have grown := (last.dropLast_dropLast_ended header).trans still
    exact (grown.trans (final.dropLast_prefix_ended header)).trans <| List.dropLast_prefix _
  · intro fault failed other
    rw [Document.assemble] at failed ⊢
    rw [Assembly.run_append]
    cases ran : Assembly.run {} first with
    | error cause =>
        rw [ran] at failed
        exact failed
    | ok last =>
        -- A document that is run to its end can only lack the end of a block.
        rw [ran] at failed
        change last.finish header = .error fault at failed
        unfold Assembly.finish at failed
        split at failed
        · obtain rfl := Except.error.inj failed
          exact absurd rfl other
        · contradiction
  · intro small fault assembled failed
    obtain ⟨last, ran, closed, _⟩ := Assembly.assemble_eq_ok assembled
    rw [Document.assemble, Assembly.run_append, ran] at failed
    have taken : last.taken = 0 + first.length := Assembly.taken_run ran
    have later := Assembly.taken_lt_of_fault closed failed
    obtain ⟨reason, message⟩ := fault.tells.2.1
    exact ⟨fault.finding.origin.number, reason, by omega, message⟩

/-- Behind the tour one more message joins a participant who has left, and one bracket too many
closes nothing. -/
theorem growth_assemble_tour :
    (∃ small large, Document.tour.assemble = .ok small ∧
      Document.assemble ⟨Document.tour.header, Document.tour.statements ++
        [⟨.message { name := "C" } { name := "B" } .plain "again", .origin⟩]⟩ = .ok large ∧
      small.columns.Sublist large.columns ∧ small.stages.dropLast.dropLast <+: large.stages) ∧
    (Document.assemble ⟨{}, [⟨.closeBlock, .origin⟩]⟩ = .error (.strayEnd ⟨1, .origin⟩) ∧
      (Fault.strayEnd ⟨1, .origin⟩).diagnostic.code ≠ some .unclosedBlock ∧
      Document.assemble ⟨{}, [⟨.closeBlock, .origin⟩, ⟨.mark "later", .origin⟩]⟩ =
        .error (.strayEnd ⟨1, .origin⟩)) ∧
    ∃ small fault, Document.tour.assemble = .ok small ∧
      Document.assemble ⟨Document.tour.header, Document.tour.statements ++
        [⟨.closeBlock, .origin⟩]⟩ = .error fault ∧
      ∃ number reason, Document.tour.statements.length < number ∧
        fault.diagnostic.message = reason ++ (" (statement " ++ toString number ++ ")") := by
  have assembled : ∃ diagram, Document.tour.assemble = .ok diagram := ⟨_, rfl⟩
  obtain ⟨small, assembled⟩ := assembled
  have longer : ∃ diagram, Document.assemble ⟨Document.tour.header, Document.tour.statements ++
      [⟨.message { name := "C" } { name := "B" } .plain "again", .origin⟩]⟩ = .ok diagram :=
    ⟨_, rfl⟩
  obtain ⟨large, assembledMore⟩ := longer
  have stray : Document.assemble ⟨{}, [⟨.closeBlock, .origin⟩]⟩ =
      .error (.strayEnd ⟨1, .origin⟩) := rfl
  have other : (Fault.strayEnd ⟨1, .origin⟩).diagnostic.code ≠ some .unclosedBlock := by decide
  have failed : ∃ fault, Document.assemble ⟨Document.tour.header, Document.tour.statements ++
      [⟨.closeBlock, .origin⟩]⟩ = .error fault := ⟨_, rfl⟩
  obtain ⟨fault, failed⟩ := failed
  exact ⟨⟨small, large, assembled, assembledMore,
      (growth_assemble _ _ _).1 small large assembled assembledMore⟩,
    ⟨stray, other, (growth_assemble {} _ [⟨.mark "later", .origin⟩]).2.1 _ stray other⟩,
    ⟨small, fault, assembled, failed, (growth_assemble _ _ _).2.2 small fault assembled failed⟩⟩

end Lifeline
