import Std.Data.String.ToNat
import Mathlib.Data.List.Perm.Basic
import Lifeline.Roster

/-! Registration and the closing of blocks add columns and leave the others in their order. -/

namespace Lifeline

namespace Column

/-- A name that is not reserved stands for a participant. -/
theorem named_eq_participant {name : String} (free : isReserved name = false) :
    named name = .participant name := by
  simp only [isReserved, Bool.or_eq_false_iff, beq_eq_false_iff_ne] at free
  rw [named, if_neg free.1, if_neg free.2]

/-- A reserved name stands for an outer column. -/
theorem named_eq_outer {name : String} (reserved : isReserved name = true) :
    ∃ side, named name = .outer side := by
  rcases isReserved_iff.mp reserved with rfl | rfl
  · exact ⟨.left, rfl⟩
  · exact ⟨.right, rfl⟩

theorem find?_isReserved_eq_none {names : List String} :
    names.find? isReserved = none ↔ ∀ name ∈ names, isReserved name = false := by
  simp

/-- This is the name of the participant that a column stands for. -/
def participant? : Column → Option String
  | .participant name => some name
  | _ => none

theorem participant?_eq_some {column : Column} {name : String} :
    column.participant? = some name ↔ column = .participant name := by
  cases column <;> simp [participant?]

/-- These are the number and the side of a block's edge. -/
def edge? : Column → Option (Nat × Side)
  | .edge block side => some (block, side)
  | _ => none

/-- The name of an edge has at least one digit between a fixed word and a bracket. -/
def isEdgeName (name : String) : Bool :=
  match name.toList with
  | '_' :: '_' :: 'B' :: 'L' :: 'O' :: 'C' :: 'K' :: rest =>
      let digits := rest.dropLast
      digits != [] && digits.all Char.isDigit &&
        (rest.getLast? == some '[' || rest.getLast? == some ']')
  | _ => false

/-- The name of an edge has its number between two fixed parts. -/
theorem toList_name_edge (block : Nat) (side : Side) :
    (edge block side).name.toList =
      '_' :: '_' :: 'B' :: 'L' :: 'O' :: 'C' :: 'K' ::
        (Nat.toDigits 10 block ++ side.bracket.toList) := by
  rw [name, String.toList_append, String.toList_append, Nat.toString_eq_repr, Nat.toList_repr]
  rfl

/-- The name of an edge has the form that is asked of such names. -/
theorem isEdgeName_name_edge (block : Nat) (side : Side) :
    isEdgeName (edge block side).name = true := by
  have digits : (Nat.toDigits 10 block).all Char.isDigit = true := by
    rw [List.all_eq_true]
    intro digit member
    exact Nat.isDigit_of_mem_toDigits (by decide) (by decide) member
  have some : Nat.toDigits 10 block ≠ [] := Nat.toDigits_ne_nil
  rw [isEdgeName, toList_name_edge]
  cases side with
  | left => simp [Side.bracket, digits, some]
  | right => simp [Side.bracket, digits, some]

/-- Different edges bear different names. -/
theorem name_edge_injective {first second : Nat × Side}
    (same : (edge first.1 first.2).name = (edge second.1 second.2).name) : first = second := by
  obtain ⟨block, side⟩ := first
  obtain ⟨other, otherSide⟩ := second
  have lists := congrArg String.toList same
  rw [toList_name_edge, toList_name_edge] at lists
  simp only [List.cons.injEq, true_and] at lists
  have lengths : side.bracket.toList.length = otherSide.bracket.toList.length := by
    cases side <;> cases otherSide <;> rfl
  obtain ⟨digits, brackets⟩ := List.append_inj' lists lengths
  have blocks : block = other := by
    apply Nat.repr_injective
    rw [Nat.repr_eq_ofList_toDigits, Nat.repr_eq_ofList_toDigits, digits]
  have sides : side = otherSide := by
    cases side <;> cases otherSide <;> first | rfl | exact absurd brackets (by decide)
  rw [blocks, sides]

end Column

namespace Roster

theorem outer_mem_columns (roster : Roster) (side : Side) :
    Column.outer side ∈ roster.columns := by
  cases side <;> simp [columns]

/-- The names of all columns begin and end with a bracket. -/
theorem map_name_columns (roster : Roster) :
    roster.columns.map Column.name = "[" :: roster.inner.map Column.name ++ ["]"] := by
  rw [columns, List.map_append, List.map_cons]
  rfl

/-- A participant has a column if its column is among the inner ones. -/
theorem participant_mem_columns {roster : Roster} {name : String} :
    Column.participant name ∈ roster.columns ↔ Column.participant name ∈ roster.inner := by
  simp [columns]

/-- These are the names of the participants in the order of their columns. -/
def participants (roster : Roster) : List String := roster.inner.filterMap Column.participant?

theorem mem_participants {roster : Roster} {name : String} :
    name ∈ roster.participants ↔ Column.participant name ∈ roster.inner := by
  simp [participants, Column.participant?_eq_some]

/-- The participants are named in the order of their columns. -/
theorem participants_sublist_names (roster : Roster) :
    roster.participants.Sublist (roster.inner.map Column.name) := by
  rw [participants]
  induction roster.inner with
  | nil => exact List.Sublist.refl _
  | cons column rest ih =>
      cases column with
      | participant name => exact ih.cons_cons name
      | _ => exact ih.cons _

/-- Registration adds a column only for a participant that has none. -/
theorem inner_register (roster : Roster) (name : String) :
    (roster.register name).inner =
      if Column.isReserved name = true ∨ name ∈ roster.participants then roster.inner
      else roster.inner ++ [.participant name] := by
  by_cases reserved : Column.isReserved name = true
  · obtain ⟨side, outer⟩ := Column.named_eq_outer reserved
    have known : Column.named name ∈ roster.columns := outer ▸ roster.outer_mem_columns side
    rw [register_of_mem known, if_pos (Or.inl reserved)]
  · have own := Column.named_eq_participant (Bool.eq_false_iff.mpr reserved)
    rw [register, own]
    by_cases known : name ∈ roster.participants
    · have column := participant_mem_columns.mpr (mem_participants.mp known)
      rw [if_pos column, if_pos (Or.inr known)]
    · have none : Column.participant name ∉ roster.columns := fun column =>
        known (mem_participants.mpr (participant_mem_columns.mp column))
      rw [if_neg none, if_neg (not_or.mpr ⟨reserved, known⟩)]

theorem mem_inner_register {roster : Roster} {column : Column} (name : String)
    (member : column ∈ roster.inner) : column ∈ (roster.register name).inner := by
  rw [inner_register]
  split
  · exact member
  · exact List.mem_append_left _ member

/-- Registration takes no column away. -/
theorem mem_inner_registerAll {roster : Roster} {column : Column} (names : List String)
    (member : column ∈ roster.inner) : column ∈ (roster.registerAll names).inner := by
  induction names generalizing roster with
  | nil => exact member
  | cons name rest ih => exact ih (mem_inner_register name member)

/-- Registration puts no outer column among the inner ones. -/
theorem outer_not_mem_registerAll {roster : Roster} {side : Side} (names : List String)
    (framed : Column.outer side ∉ roster.inner) :
    Column.outer side ∉ (roster.registerAll names).inner := by
  induction names generalizing roster with
  | nil => exact framed
  | cons name rest ih =>
      apply ih
      rw [inner_register]
      split
      · exact framed
      · simpa using framed

/-- Only inner columns can be taken away. -/
theorem mem_columns_of_inner {first second : Roster} {column : Column}
    (grown : ∀ column ∈ first.inner, column ∈ second.inner) (member : column ∈ first.columns) :
    column ∈ second.columns := by
  simp only [columns, List.mem_append, List.mem_cons] at member ⊢
  rcases member with (outer | inner) | outer
  · exact Or.inl (Or.inl outer)
  · exact Or.inl (Or.inr (grown _ inner))
  · exact Or.inr outer

theorem mem_columns_registerAll {roster : Roster} {column : Column} (names : List String)
    (member : column ∈ roster.columns) : column ∈ (roster.registerAll names).columns :=
  mem_columns_of_inner (fun _ inner => mem_inner_registerAll names inner) member

/-- Whoever is registered has a column. -/
theorem named_mem_columns_registerAll (roster : Roster) {names : List String} {name : String}
    (member : name ∈ names) : Column.named name ∈ (roster.registerAll names).columns := by
  induction names generalizing roster with
  | nil => simp at member
  | cons first rest ih =>
      rcases List.mem_cons.mp member with rfl | member
      · exact mem_columns_registerAll rest (named_mem_columns_register roster name)
      · exact ih _ member

/-- Registration adds some columns of participants, and they are none of the reserved names. -/
theorem exists_registerAll (roster : Roster) (names : List String) :
    ∃ new : List String, (∀ name ∈ new, Column.isReserved name = false) ∧
      (roster.registerAll names).inner = roster.inner ++ new.map Column.participant := by
  induction names generalizing roster with
  | nil => exact ⟨[], by simp, (List.append_nil _).symm⟩
  | cons name rest ih =>
      obtain ⟨later, free, grown⟩ := ih (roster.register name)
      rw [inner_register] at grown
      split at grown
      · exact ⟨later, free, grown⟩
      · next unknown =>
          have ordinary := Bool.eq_false_iff.mpr (not_or.mp unknown).1
          refine ⟨name :: later, ?_, ?_⟩
          · intro other member
            rcases List.mem_cons.mp member with rfl | member
            · exact ordinary
            · exact free other member
          · rw [List.append_assoc] at grown
            exact grown

/-- Names that are known already make no difference. -/
theorem registerAll_of_mem {roster : Roster} {names : List String}
    (known : ∀ name ∈ names, Column.named name ∈ roster.columns) :
    roster.registerAll names = roster := by
  induction names with
  | nil => rfl
  | cons name rest ih =>
      rw [registerAll, List.foldl_cons, register_of_mem (known name List.mem_cons_self)]
      exact ih fun other member => known other (List.mem_cons_of_mem name member)

/-- New participants get their columns in the order of their names. -/
theorem inner_registerAll_of_nodup {roster : Roster} {names : List String}
    (distinct : (roster.participants ++ names).Nodup)
    (free : ∀ name ∈ names, Column.isReserved name = false) :
    (roster.registerAll names).inner = roster.inner ++ names.map Column.participant := by
  induction names generalizing roster with
  | nil => exact (List.append_nil _).symm
  | cons name rest ih =>
      have ordinary : Column.isReserved name = false := free name List.mem_cons_self
      have fresh : name ∉ roster.participants := fun member =>
        (List.nodup_append.mp distinct).2.2 name member name List.mem_cons_self rfl
      have added : (roster.register name).inner = roster.inner ++ [.participant name] := by
        rw [inner_register, if_neg (by simp [ordinary, fresh])]
      have listed : (roster.register name).participants = roster.participants ++ [name] := by
        rw [participants, added, List.filterMap_append]
        rfl
      have others : ((roster.register name).participants ++ rest).Nodup := by
        rw [listed, List.append_assoc]
        exact distinct
      have grown := ih others fun other member => free other (List.mem_cons_of_mem name member)
      rw [added, List.append_assoc] at grown
      exact grown

private theorem later {used rest : List Column} {first : Column}
    (some : ∃ column ∈ first :: rest, column ∈ used) (unused : first ∉ used) :
    ∃ column ∈ rest, column ∈ used := by
  obtain ⟨column, inside, hit⟩ := some
  rcases List.mem_cons.mp inside with rfl | inside
  · contradiction
  · exact ⟨column, inside, hit⟩

/-- The first used column is where an edge is put. -/
theorem insertBeforeFirst_eq {used columns : List Column} (edge : Column)
    (some : ∃ column ∈ columns, column ∈ used) :
    ∃ before column after, columns = before ++ column :: after ∧ (∀ other ∈ before, other ∉ used) ∧
      column ∈ used ∧ insertBeforeFirst used edge columns = before ++ edge :: column :: after := by
  induction columns with
  | nil => simp at some
  | cons first rest ih =>
      rw [insertBeforeFirst]
      by_cases member : first ∈ used
      · refine ⟨[], first, rest, rfl, by simp, member, ?_⟩
        rw [if_pos (List.contains_iff_mem.mpr member)]
        rfl
      · obtain ⟨before, column, after, split, clean, hit, inserted⟩ := ih (later some member)
        refine ⟨first :: before, column, after, by rw [split]; rfl, ?_, hit, ?_⟩
        · intro other inside
          rcases List.mem_cons.mp inside with rfl | inside
          · exact member
          · exact clean other inside
        · rw [if_neg (by simpa using member), inserted]
          rfl

/-- The left edge stays in the first part if a used column stands there. -/
theorem insertBeforeFirst_append {used first : List Column} (edge : Column)
    (second : List Column) (some : ∃ column ∈ first, column ∈ used) :
    insertBeforeFirst used edge (first ++ second) =
      insertBeforeFirst used edge first ++ second := by
  induction first with
  | nil => simp at some
  | cons head rest ih =>
      rw [List.cons_append, insertBeforeFirst, insertBeforeFirst]
      by_cases member : head ∈ used
      · rw [if_pos (List.contains_iff_mem.mpr member), if_pos (List.contains_iff_mem.mpr member)]
        rfl
      · rw [if_neg (by simpa using member), if_neg (by simpa using member), ih (later some member)]
        rfl

/-- Nothing is put among columns that are not used. -/
theorem insertBeforeFirst_skip {used first : List Column} (edge : Column) (second : List Column)
    (unused : ∀ column ∈ first, column ∉ used) :
    insertBeforeFirst used edge (first ++ second) =
      first ++ insertBeforeFirst used edge second := by
  induction first with
  | nil => rfl
  | cons head rest ih =>
      have absent : head ∉ used := unused head List.mem_cons_self
      rw [List.cons_append, insertBeforeFirst, if_neg (by simpa using absent),
        ih fun column member => unused column (List.mem_cons_of_mem head member)]
      rfl

/-- The right edge stays in the second part if a used column stands there. -/
theorem insertBehindLast_append {used second : List Column} (edge : Column)
    (first : List Column) (some : ∃ column ∈ second, column ∈ used) :
    insertBehindLast used edge (first ++ second) =
      first ++ insertBehindLast used edge second := by
  have backwards : ∃ column ∈ second.reverse, column ∈ used := by
    simpa only [List.mem_reverse] using some
  rw [insertBehindLast, insertBehindLast, List.reverse_append,
    insertBeforeFirst_append edge _ backwards, List.reverse_append, List.reverse_reverse]

/-- Unused columns at the end stay behind the right edge. -/
theorem insertBehindLast_skip {used second : List Column} (edge : Column) (first : List Column)
    (unused : ∀ column ∈ second, column ∉ used) :
    insertBehindLast used edge (first ++ second) =
      insertBehindLast used edge first ++ second := by
  have backwards : ∀ column ∈ second.reverse, column ∉ used := by
    simpa only [List.mem_reverse] using unused
  rw [insertBehindLast, insertBehindLast, List.reverse_append,
    insertBeforeFirst_skip edge _ backwards, List.reverse_append, List.reverse_reverse]

/-- The right edge stands directly behind the last used column. -/
theorem insertBehindLast_eq {used columns : List Column} (edge : Column)
    (some : ∃ column ∈ columns, column ∈ used) :
    ∃ before column after, columns = before ++ column :: after ∧ (∀ other ∈ after, other ∉ used) ∧
      column ∈ used ∧ insertBehindLast used edge columns = before ++ column :: edge :: after := by
  have backwards : ∃ column ∈ columns.reverse, column ∈ used := by
    simpa only [List.mem_reverse] using some
  obtain ⟨after, column, before, split, clean, hit, inserted⟩ := insertBeforeFirst_eq edge backwards
  refine ⟨before.reverse, column, after.reverse, ?_, ?_, hit, ?_⟩
  · rw [← List.reverse_reverse columns, split]
    simp
  · intro other inside
    exact clean other (List.mem_reverse.mp inside)
  · rw [insertBehindLast, inserted]
    simp

/-- The edges of a block stand around a middle part, outside of which nothing is used. The middle
part begins and ends with a used column, or else nothing is used and it is everything. -/
theorem enclose_eq (roster : Roster) (block : Nat) (used : List Column) :
    ∃ before middle after, roster.inner = before ++ middle ++ after ∧
      (roster.enclose block used).inner =
        before ++ .edge block .left :: middle ++ .edge block .right :: after ∧
      (∀ column ∈ before ++ after, column ∉ used) ∧
      ((∃ column ∈ middle.head?, column ∈ used) ∧ (∃ column ∈ middle.getLast?, column ∈ used) ∨
        before = [] ∧ after = [] ∧ ∀ column ∈ roster.inner, column ∉ used) := by
  unfold enclose
  dsimp only
  by_cases some : ∃ column ∈ roster.inner, column ∈ used
  · rw [if_pos (by simpa using some)]
    obtain ⟨before, first, rest, split, clean, hit, inserted⟩ :=
      insertBeforeFirst_eq (.edge block .left) some
    have ahead : ∃ column ∈ (first :: rest), column ∈ used := ⟨first, List.mem_cons_self, hit⟩
    have behind :=
      insertBehindLast_append (.edge block .right) (before ++ [.edge block .left]) ahead
    obtain ⟨body, last, after, splitBack, cleanBack, hitLast, insertedBack⟩ :=
      insertBehindLast_eq (.edge block .right) ahead
    refine ⟨before, body ++ [last], after, ?_, ?_, ?_, Or.inl ⟨?_, ?_⟩⟩
    · rw [split, splitBack]
      simp
    · rw [inserted]
      simp only [List.append_assoc, List.singleton_append] at behind
      rw [behind, insertedBack]
      simp
    · intro column member
      rcases List.mem_append.mp member with member | member
      · exact clean column member
      · exact cleanBack column member
    · refine ⟨first, ?_, hit⟩
      have heads := congrArg List.head? splitBack
      cases body <;> simp_all
    · exact ⟨last, by simp, hitLast⟩
  · have unused : ∀ column ∈ roster.inner, column ∉ used := fun column inside hit =>
      some ⟨column, inside, hit⟩
    rw [if_neg (by simpa using some)]
    exact ⟨[], roster.inner, [], by simp, by simp, by simp, Or.inr ⟨rfl, rfl, unused⟩⟩

/-- Columns behind all others that a block does not use stay where they are when the block closes.
-/
theorem inner_enclose_append {first second : Roster} {more : List Column} (block : Nat)
    {used : List Column} (joined : first.inner = second.inner ++ more)
    (some : ∃ column ∈ second.inner, column ∈ used) (unused : ∀ column ∈ more, column ∉ used) :
    (first.enclose block used).inner = (second.enclose block used).inner ++ more := by
  have someToo : ∃ column ∈ first.inner, column ∈ used := by
    obtain ⟨column, inside, hit⟩ := some
    exact ⟨column, joined ▸ List.mem_append_left more inside, hit⟩
  rw [enclose, enclose, if_pos (by simpa using someToo), if_pos (by simpa using some), joined,
    insertBeforeFirst_append _ _ some, insertBehindLast_skip _ _ unused]

/-- A block that closes adds its two edges and nothing else. -/
theorem perm_enclose (roster : Roster) (block : Nat) (used : List Column) :
    (roster.enclose block used).inner.Perm
      (.edge block .left :: .edge block .right :: roster.inner) := by
  obtain ⟨before, middle, after, split, enclosed, _, _⟩ := roster.enclose_eq block used
  rw [split, enclosed, List.append_assoc, List.cons_append]
  refine List.perm_middle.trans (List.Perm.cons _ ?_)
  rw [← List.append_assoc]
  exact List.perm_middle

/-- A block that closes takes no column away. -/
theorem mem_inner_enclose {roster : Roster} {column : Column} (block : Nat) (used : List Column)
    (member : column ∈ roster.inner) : column ∈ (roster.enclose block used).inner :=
  (roster.perm_enclose block used).mem_iff.mpr
    (List.mem_cons_of_mem _ (List.mem_cons_of_mem _ member))

/-- These are the edges of the blocks that have been kept, in the order of their columns. -/
def edges (roster : Roster) : List (Nat × Side) := roster.inner.filterMap Column.edge?

theorem edges_register (roster : Roster) (name : String) :
    (roster.register name).edges = roster.edges := by
  rw [edges, edges, inner_register]
  split
  · rfl
  · rw [List.filterMap_append]
    exact List.append_nil _

/-- Registration adds no edge. -/
theorem edges_registerAll (roster : Roster) (names : List String) :
    (roster.registerAll names).edges = roster.edges := by
  induction names generalizing roster with
  | nil => rfl
  | cons name rest ih => exact (ih _).trans (roster.edges_register name)

/-- A block that closes adds its two edges to those that are there. -/
theorem perm_edges_enclose (roster : Roster) (block : Nat) (used : List Column) :
    (roster.enclose block used).edges.Perm
      ((block, .left) :: (block, .right) :: roster.edges) :=
  (roster.perm_enclose block used).filterMap Column.edge?

/-- The edges of a block leave the participants in their order. -/
theorem participants_enclose (roster : Roster) (block : Nat) (used : List Column) :
    (roster.enclose block used).participants = roster.participants := by
  obtain ⟨before, middle, after, split, enclosed, _, _⟩ := roster.enclose_eq block used
  rw [participants, participants, split, enclosed]
  simp [List.filterMap_cons, Column.participant?]

end Roster

end Lifeline
