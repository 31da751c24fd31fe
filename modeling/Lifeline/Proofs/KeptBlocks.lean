import Lifeline.Proofs.Listing

/-! No move changes a block that has been kept, or takes it away. -/

namespace Lifeline

namespace Stage

def isBlock : Stage → Bool
  | .block _ _ _ => true
  | _ => false

variable {stage : Stage}

/-- A mark and a jump are no blocks. -/
theorem isBlock_of_not_isDrawn (quiet : stage.isDrawn = false) : stage.isBlock = false := by
  cases stage <;> first | rfl | contradiction

/-- A message and a note are no blocks. -/
theorem isBlock_of_speaks (spoken : stage.speaks = true) : stage.isBlock = false := by
  cases stage <;> first | rfl | contradiction

end Stage

@[simp] theorem Change.isBlock_stage (change : Change) (names : List String) (mode : Terminator) :
    (change.stage names mode).isBlock = false := by
  cases change <;> rfl

/-- A change of participants adds no block. -/
theorem Change.Extends.filter_isBlock {change : Change} {names : List String} {mode : Terminator}
    {before after : List Stage} (extended : change.Extends names mode before after) :
    after.filter Stage.isBlock = before.filter Stage.isBlock := by
  rcases extended with rfl | ⟨older, earlier, rfl, rfl⟩
  · simp
  · simp

namespace Roster

theorem sublist_inner_register (roster : Roster) (name : String) :
    roster.inner.Sublist (roster.register name).inner := by
  rw [inner_register]
  split
  · exact List.Sublist.refl _
  · exact List.sublist_append_left _ _

/-- Registration keeps the order of the columns. -/
theorem sublist_inner_registerAll (roster : Roster) (names : List String) :
    roster.inner.Sublist (roster.registerAll names).inner := by
  induction names generalizing roster with
  | nil => exact List.Sublist.refl _
  | cons name rest ih => exact (roster.sublist_inner_register name).trans (ih _)

/-- A block that closes keeps the order of the other columns. -/
theorem sublist_inner_enclose (roster : Roster) (block : Nat) (used : List Column) :
    roster.inner.Sublist (roster.enclose block used).inner := by
  obtain ⟨before, middle, after, split, enclosed, _, _⟩ := roster.enclose_eq block used
  rw [split, enclosed]
  simp

end Roster

namespace Assembly

/-- These are the blocks that have been kept so far. -/
def kept (assembly : Assembly) : List Stage := assembly.written.filter Stage.isBlock

/-- Which blocks have been kept is seen in what has been written. -/
theorem kept_of_written {before after : Assembly} (same : after.written = before.written) :
    after.kept = before.kept := by
  rw [kept, same, kept]

/-- A stage that is no block keeps no block. -/
theorem kept_place (assembly : Assembly) {stage : Stage} (leaf : stage.walk = [stage])
    (flat : stage.isBlock = false) : (assembly.place stage).kept = assembly.kept := by
  rw [kept, written_place _ leaf, List.filter_append, List.filter_singleton, flat, kept]
  exact List.append_nil _

/-- Nothing in a block that is dropped is drawn, and so it has no blocks inside. -/
theorem kept_drop {assembly : Assembly} {frame : Frame} {outer : List Frame}
    (quiet : assembly.Quiet) (inside : assembly.frames = frame :: outer)
    (dead : assembly.draft.live = false) : (assembly.drop frame outer).kept = assembly.kept := by
  have none : (Level.walk ⟨frame.closed, assembly.draft⟩).filter Stage.isBlock = [] :=
    List.filter_eq_nil_iff.mpr fun stage member => by
      rw [Stage.isBlock_of_not_isDrawn (quiet.inside inside dead stage member)]
      exact Bool.false_ne_true
  rw [kept, kept, written_inside inside, List.filter_append, none, List.append_nil]

/-- Blocks are added by keeping them, and none is ever taken away. -/
theorem kept_of_move (before after : Assembly) (move : Move before after) (quiet : before.Quiet) :
    after.kept = before.kept ∨
      ∃ frame outer, before.frames = frame :: outer ∧ after = before.keep frame outer ∧
        after.kept.Perm (frame.block before.draft.stages :: before.kept) := by
  cases move with
  | register names => exact Or.inl rfl
  | change change names mode known =>
      left
      rcases before.written_change change names mode with ⟨_, same⟩ | ⟨_, extended⟩
      · rw [same]
      · exact extended.filter_isBlock
  | speak stage spoken known present =>
      left
      rw [kept_place _ (Stage.walk_of_speaks spoken) (Stage.isBlock_of_speaks spoken)]
      exact kept_of_written (before.written_use _)
  | steer stage silent =>
      exact Or.inl (kept_place _ (Stage.walk_of_not_isDrawn silent)
        (Stage.isBlock_of_not_isDrawn silent))
  | record markers taken => exact Or.inl rfl
  | openBlock origin mode label => exact Or.inl (kept_of_written (before.written_openBlock _ _ _))
  | divide frame outer mode label inside => exact Or.inl (kept_of_written (written_divide inside _ _))
  | keep frame outer inside live =>
      refine Or.inr ⟨frame, outer, inside, rfl, ?_⟩
      rw [kept, written_keep, kept, written_inside inside, List.filter_append, List.filter_append,
        List.filter_cons_of_pos rfl]
      exact List.perm_middle
  | drop frame outer inside dead => exact Or.inl (kept_drop quiet inside dead)

/-- A block that has been kept stays. -/
theorem mem_kept_of_moves {before after : Assembly} (quiet : before.Quiet)
    (moves : Moves before after) {stage : Stage} (member : stage ∈ before.kept) :
    stage ∈ after.kept := by
  have holds : after.Quiet ∧ stage ∈ after.kept := by
    apply moves.keeps
    · rintro first second move ⟨still, old⟩
      refine ⟨quiet_of_move first second move still, ?_⟩
      rcases kept_of_move first second move still with same | ⟨_, _, _, _, perm⟩
      · rw [same]
        exact old
      · exact perm.mem_iff.mpr (List.mem_cons_of_mem _ old)
    · exact ⟨quiet, member⟩
  exact holds.2

/-- No move takes a column away or lets two of them change places. -/
theorem sublist_inner_of_move (before after : Assembly) (move : Move before after) :
    before.roster.inner.Sublist after.roster.inner := by
  cases move with
  | register names => exact before.roster.sublist_inner_registerAll names
  | change change names mode known => rw [inner_change]
  | keep frame outer inside live => exact before.roster.sublist_inner_enclose _ _
  | speak stage spoken known present => exact List.Sublist.refl _
  | steer stage silent => exact List.Sublist.refl _
  | record markers taken => exact List.Sublist.refl _
  | openBlock origin mode label => exact List.Sublist.refl _
  | divide frame outer mode label inside => exact List.Sublist.refl _
  | drop frame outer inside dead => exact List.Sublist.refl _

end Assembly

end Lifeline
