import Lifeline.Assembly.Draft

/-! A walk visits the stages of a tree in document order. -/

namespace Lifeline

namespace Stage

mutual

/-- The walk of a stage visits the stage itself and then everything below it. -/
def walk : Stage → List Stage
  | .block left right sections => .block left right sections :: walkSections sections
  | stage => [stage]

def walkSections : List (Section Stage) → List Stage
  | [] => []
  | ⟨_, _, stages⟩ :: rest => walkAll stages ++ walkSections rest

def walkAll : List Stage → List Stage
  | [] => []
  | stage :: rest => walk stage ++ walkAll rest

end

/-- These are the names of the participants that a stage is about by itself. -/
def about : Stage → List String
  | .message sender receiver _ _ => [sender, receiver]
  | .enter names _ => names
  | .leave names _ => names
  | .note _ _ names _ => names
  | .mark _ => []
  | .jump _ => []
  | .block _ _ _ => []

/-- These are the names of the columns at the edges of a block. -/
def edges : Stage → List String
  | .block left right _ => [left, right]
  | _ => []

/-- Messages and notes speak of participants that are visible already. -/
def speaks : Stage → Bool
  | .message _ _ _ _ => true
  | .note _ _ _ _ => true
  | _ => false

theorem walkAll_append (first second : List Stage) :
    walkAll (first ++ second) = walkAll first ++ walkAll second := by
  induction first with
  | nil => rfl
  | cons stage rest ih => rw [List.cons_append, walkAll, walkAll, ih, List.append_assoc]

theorem walkSections_append (first second : List (Section Stage)) :
    walkSections (first ++ second) = walkSections first ++ walkSections second := by
  induction first with
  | nil => rfl
  | cons head rest ih =>
      rw [List.cons_append, walkSections, walkSections, ih, List.append_assoc]

theorem walkAll_singleton (stage : Stage) : walkAll [stage] = stage.walk := by
  simp [walkAll]

theorem walkSections_singleton (mode : BlockMode) (label : String) (stages : List Stage) :
    walkSections [⟨mode, label, stages⟩] = walkAll stages := by
  simp [walkSections]

/-- A change of participants has nothing inside. -/
theorem walk_change (change : Change) (names : List String) (mode : Terminator) :
    (change.stage names mode).walk = [change.stage names mode] := by
  cases change <;> simp [Change.stage, walk]

/-- A message and a note have nothing inside. -/
theorem walk_of_speaks {stage : Stage} (spoken : stage.speaks = true) : stage.walk = [stage] := by
  cases stage <;> simp_all [speaks, walk]

/-- A mark and a jump have nothing inside. -/
theorem walk_of_not_isDrawn {stage : Stage} (quiet : stage.isDrawn = false) :
    stage.walk = [stage] := by
  cases stage <;> simp_all [isDrawn, walk]

/-- A message and a note are drawn. -/
theorem isDrawn_of_speaks {stage : Stage} (spoken : stage.speaks = true) :
    stage.isDrawn = true := by
  cases stage <;> simp_all [speaks, isDrawn]

end Stage

/-- A change adds names to a list of stages, as a stage of their own or within its last stage. -/
def Change.Extends (change : Change) (names : List String) (mode : Terminator)
    (before after : List Stage) : Prop :=
  after = before ++ [change.stage names mode] ∨
    ∃ older earlier, before = older ++ [change.stage earlier mode] ∧
      after = older ++ [change.stage (Draft.merge earlier names) mode]

namespace Change

/-- A stage that a change can join is a stage of the same change in the same mode. -/
theorem names?_eq_some {change : Change} {mode : Terminator} {stage : Stage}
    {names : List String} (found : change.names? mode stage = some names) :
    stage = change.stage names mode := by
  cases stage <;> simp_all [names?, Change.stage]

@[simp] theorem names?_stage (change : Change) (names : List String) (mode : Terminator) :
    change.names? mode (change.stage names mode) = some names := by
  cases change <;> simp [names?, Change.stage]

theorem isDrawn_stage (change : Change) (names : List String) (mode : Terminator) :
    (change.stage names mode).isDrawn = true := by
  cases change <;> rfl

namespace Extends

variable {change : Change} {names : List String} {mode : Terminator} {before after : List Stage}

/-- An extension stays one behind any stages. -/
theorem append_left (extended : change.Extends names mode before after) (front : List Stage) :
    change.Extends names mode (front ++ before) (front ++ after) := by
  rcases extended with rfl | ⟨older, earlier, rfl, rfl⟩
  · left
    rw [List.append_assoc]
  · right
    exact ⟨front ++ older, earlier, by rw [List.append_assoc], by rw [List.append_assoc]⟩

/-- An extended list of stages has an extended walk. -/
theorem walkAll (extended : change.Extends names mode before after) :
    change.Extends names mode (Stage.walkAll before) (Stage.walkAll after) := by
  rcases extended with rfl | ⟨older, earlier, rfl, rfl⟩
  · left
    rw [Stage.walkAll_append, Stage.walkAll_singleton, Stage.walk_change]
  · right
    refine ⟨Stage.walkAll older, earlier, ?_, ?_⟩
    · rw [Stage.walkAll_append, Stage.walkAll_singleton, Stage.walk_change]
    · rw [Stage.walkAll_append, Stage.walkAll_singleton, Stage.walk_change]

end Extends

end Change

namespace Draft

/-- A change extends the stages of a draft. -/
theorem extends_change (draft : Draft) (change : Change) (names : List String)
    (mode : Terminator) :
    change.Extends names mode draft.stages (draft.change change names mode).stages := by
  unfold Draft.change
  split
  · left
    rw [stages_push]
  · next newest older recent =>
      split
      · next earlier found =>
          have newestEq := Change.names?_eq_some found
          right
          exact ⟨older.reverse, earlier, by simp [stages, recent, newestEq], by simp [stages]⟩
      · left
        rw [stages_push]

@[simp] theorem live_change (draft : Draft) (change : Change) (names : List String)
    (mode : Terminator) : (draft.change change names mode).live = true := by
  have drawn := change.isDrawn_stage names mode
  unfold Draft.change
  split
  · simp [push, drawn]
  · split
    · rfl
    · simp [push, drawn]

/-- Names are merged one list after another. -/
theorem merge_append (listed first second : List String) :
    merge listed (first ++ second) = merge (merge listed first) second := by
  rw [merge, List.foldl_append, ← merge, ← merge]

theorem use_append (draft : Draft) (first second : List Column) :
    (draft.use first).use second = draft.use (first ++ second) := by
  simp [use]

/-- Two changes of one kind in a row share a stage. -/
theorem change_change (draft : Draft) (change : Change) {first second : List String}
    (mode : Terminator) (columns : List Column) (distinct : second.Nodup)
    (fresh : ∀ name ∈ second, name ∉ first) :
    ((draft.change change first mode).use columns).change change second mode =
      (draft.use columns).change change (first ++ second) mode := by
  have joined : merge first second = first ++ second := merge_eq_append distinct fresh
  have drawn (names : List String) := change.isDrawn_stage names mode
  cases recent : draft.recent with
  | nil => simp [Draft.change, recent, push, use, drawn, joined]
  | cons newest older =>
      cases found : change.names? mode newest with
      | some earlier => simp [Draft.change, recent, found, use, merge_append]
      | none => simp [Draft.change, recent, found, push, use, drawn, joined]

end Draft

end Lifeline
