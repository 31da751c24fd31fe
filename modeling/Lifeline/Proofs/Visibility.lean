import Mathlib.Data.Finset.Basic
import Lifeline.Proofs.Columns

/-! A change adds participants to the visible ones or takes them away. -/

namespace Lifeline

namespace Column

/-- These are the participants among the names. -/
def participants (names : List String) : Finset String :=
  (names.filter fun name => !isReserved name).toFinset

@[simp] theorem mem_participants {names : List String} {name : String} :
    name ∈ participants names ↔ name ∈ names ∧ isReserved name = false := by
  simp [participants]

end Column

/-- These are the visible participants after a change of some of them. -/
def Change.apply (visible names : Finset String) : Change → Finset String
  | .enter => visible ∪ names
  | .leave => visible \ names

theorem nodup_eraseDups (names : List String) : names.eraseDups.Nodup := by
  induction size : names.length using Nat.strong_induction_on generalizing names with
  | _ count ih =>
      cases names with
      | nil => simp
      | cons first rest =>
          rw [List.eraseDups_cons, List.nodup_cons]
          have shorter := List.length_filter_le (fun name => !name == first) rest
          rw [List.length_cons] at size
          constructor
          · simp [List.mem_eraseDups]
          · exact ih _ (by omega) _ rfl

/-- A list without repetition keeps all of its names. -/
theorem eraseDups_of_nodup {names : List String} (distinct : names.Nodup) :
    names.eraseDups = names := by
  induction names with
  | nil => rfl
  | cons first rest ih =>
      obtain ⟨fresh, others⟩ := List.nodup_cons.mp distinct
      have kept : rest.filter (fun name => !name == first) = rest := by
        rw [List.filter_eq_self]
        intro name member
        have different : name ≠ first := fun same => fresh (same ▸ member)
        simpa using different
      rw [List.eraseDups_cons, kept, ih others]

namespace Roster

/-- These are the visible participants without their order. -/
def shown (roster : Roster) : Finset String := roster.visible.toFinset

@[simp] theorem mem_shown {roster : Roster} {name : String} :
    name ∈ roster.shown ↔ name ∈ roster.visible := by
  simp [shown]

/-- Whoever can undergo a change undergoes it once. -/
theorem nodup_changeable (roster : Roster) (change : Change) (names : List String) :
    (roster.changeable change names).Nodup :=
  nodup_eraseDups _

/-- A participant that is listed can undergo a change if it is in the state before it. -/
theorem mem_changeable {roster : Roster} {change : Change} {names : List String} {name : String} :
    name ∈ roster.changeable change names ↔ name ∈ names ∧ Column.isReserved name = false ∧
      roster.visible.contains name = change.fromVisible := by
  simp [changeable, List.mem_eraseDups]

/-- Only hidden participants begin. -/
theorem mem_changeable_enter {roster : Roster} {names : List String} {name : String} :
    name ∈ roster.changeable .enter names ↔
      name ∈ names ∧ Column.isReserved name = false ∧ name ∉ roster.visible := by
  simp [mem_changeable, Change.fromVisible]

/-- Only visible participants end. -/
theorem mem_changeable_leave {roster : Roster} {names : List String} {name : String} :
    name ∈ roster.changeable .leave names ↔
      name ∈ names ∧ Column.isReserved name = false ∧ name ∈ roster.visible := by
  simp [mem_changeable, Change.fromVisible]

/-- Names without repetition that can all undergo a change do so in their order. -/
theorem changeable_eq_self {roster : Roster} {change : Change} {names : List String}
    (distinct : names.Nodup) (able : ∀ name ∈ names, Column.isReserved name = false ∧
      roster.visible.contains name = change.fromVisible) :
    roster.changeable change names = names := by
  have kept : (names.filter fun name => !Column.isReserved name &&
      roster.visible.contains name == change.fromVisible) = names := by
    rw [List.filter_eq_self]
    intro name member
    simp only [able name member, Bool.not_false, BEq.rfl, Bool.and_self]
  rw [changeable, kept, eraseDups_of_nodup distinct]

/-- Those who can undergo a change all do, when it is asked of them alone. -/
@[simp] theorem changeable_changeable (roster : Roster) (change : Change) (names : List String) :
    roster.changeable change (roster.changeable change names) = roster.changeable change names :=
  changeable_eq_self (roster.nodup_changeable change names) fun _ member =>
    (mem_changeable.mp member).2

@[simp] theorem inner_change (roster : Roster) (change : Change) (names : List String) :
    (roster.change names change).inner = roster.inner := by
  cases change <;> rfl

@[simp] theorem columns_change (roster : Roster) (change : Change) (names : List String) :
    (roster.change names change).columns = roster.columns := by
  rw [columns, columns, inner_change]

/-- A change shows or hides all participants whom it lists. -/
theorem shown_change (roster : Roster) (change : Change) (names : List String) :
    (roster.change names change).shown = change.apply roster.shown names.toFinset := by
  ext name
  cases change with
  | enter => simp [change, Change.apply]
  | leave => simp [change, Change.apply]

/-- The names that cannot undergo a change do not matter to it. -/
theorem apply_changeable (roster : Roster) (change : Change) (names : List String) :
    change.apply roster.shown (roster.changeable change names).toFinset =
      change.apply roster.shown (Column.participants names) := by
  cases change with
  | enter =>
      ext name
      simp only [Change.apply, Finset.mem_union, List.mem_toFinset, mem_shown,
        mem_changeable_enter, Column.mem_participants]
      tauto
  | leave =>
      ext name
      simp only [Change.apply, Finset.mem_sdiff, List.mem_toFinset, mem_shown,
        mem_changeable_leave, Column.mem_participants]
      tauto

/-- Asking for one change twice is asking for it once, with all names. -/
theorem changeable_append (roster : Roster) (change : Change) (first second : List String) :
    roster.changeable change (first ++ second) = roster.changeable change first ++
      (roster.change (roster.changeable change first) change).changeable change second := by
  have later (name : String) : (!Column.isReserved name &&
        (roster.change (roster.changeable change first) change).visible.contains name ==
          change.fromVisible) =
      (!(first.filter fun name => !Column.isReserved name &&
          roster.visible.contains name == change.fromVisible).contains name &&
        (!Column.isReserved name && roster.visible.contains name == change.fromVisible)) := by
    rw [Bool.eq_iff_iff]
    cases change with
    | enter =>
        simp [Roster.change, Change.fromVisible, mem_changeable_enter]
        tauto
    | leave =>
        simp [Roster.change, Change.fromVisible, mem_changeable_leave]
        tauto
  rw [changeable, List.filter_append, List.eraseDups_append, ← changeable,
    changeable.eq_def _ _ second]
  simp only [later, List.removeAll, List.filter_filter]

/-- Participants are changed one list after another. -/
theorem change_append (roster : Roster) (change : Change) (first second : List String) :
    (roster.change first change).change second change = roster.change (first ++ second) change := by
  cases change with
  | enter => simp [Roster.change]
  | leave => simp [Roster.change, List.filter_filter, Bool.and_comm]

/-- Whoever has undergone a change cannot undergo it again. -/
theorem fresh_changeable {roster : Roster} {change : Change} {first second : List String}
    {name : String} (member : name ∈ (roster.change first change).changeable change second) :
    name ∉ first := by
  have able := (mem_changeable.mp member).2.2
  cases change with
  | enter =>
      simp only [Roster.change, Change.fromVisible, List.contains_append,
        Bool.or_eq_false_iff] at able
      simpa using able.2
  | leave =>
      simp only [Roster.change, Change.fromVisible, List.contains_iff_mem, List.mem_filter] at able
      simpa using able.2

/-- Some name can undergo a change exactly if the change makes a difference. -/
theorem changeable_eq_nil_iff (roster : Roster) (change : Change) (names : List String) :
    roster.changeable change names = [] ↔
      change.apply roster.shown (Column.participants names) = roster.shown := by
  rw [List.eq_nil_iff_forall_not_mem]
  cases change with
  | enter =>
      simp only [mem_changeable_enter, Change.apply, Finset.union_eq_left, Finset.subset_iff,
        Column.mem_participants, mem_shown]
      constructor
      · intro none name member
        by_contra hidden
        exact none name ⟨member.1, member.2, hidden⟩
      · intro all name facts
        exact facts.2.2 (all ⟨facts.1, facts.2.1⟩)
  | leave =>
      simp only [mem_changeable_leave, Change.apply, Finset.sdiff_eq_self_iff_disjoint,
        Finset.disjoint_left, Column.mem_participants, mem_shown]
      constructor
      · intro none name seen member
        exact none name ⟨member.1, member.2, seen⟩
      · intro all name facts
        exact all facts.2.2 ⟨facts.1, facts.2.1⟩

@[simp] theorem visible_register (roster : Roster) (name : String) :
    (roster.register name).visible = roster.visible := by
  unfold register
  split <;> rfl

@[simp] theorem visible_registerAll (roster : Roster) (names : List String) :
    (roster.registerAll names).visible = roster.visible := by
  induction names generalizing roster with
  | nil => rfl
  | cons name rest ih =>
      rw [registerAll, List.foldl_cons]
      exact (ih _).trans (visible_register roster name)

@[simp] theorem visible_enclose (roster : Roster) (block : Nat) (used : List Column) :
    (roster.enclose block used).visible = roster.visible := by
  unfold enclose
  dsimp only
  split <;> rfl

/-- The visible participants are listed in the order of their columns. -/
theorem visibleInOrder_eq_filter (roster : Roster) :
    roster.visibleInOrder = roster.participants.filter fun name => roster.visible.contains name := by
  rw [visibleInOrder, participants, List.filter_filterMap]
  congr 1
  funext column
  cases column with
  | participant name => simp [Column.participant?, Option.filter]
  | _ => rfl

/-- A visible participant is listed if it has a column. -/
theorem mem_visibleInOrder {roster : Roster} {name : String} :
    name ∈ roster.visibleInOrder ↔
      Column.participant name ∈ roster.inner ∧ name ∈ roster.visible := by
  rw [visibleInOrder_eq_filter, List.mem_filter, mem_participants, List.contains_iff_mem]

end Roster

end Lifeline
