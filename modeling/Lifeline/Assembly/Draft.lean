import Lifeline.Diagram

/-! A draft holds the stages of a section while it grows. -/

namespace Lifeline

/-- The newest stage comes first, since only the newest one can still grow. -/
structure Draft where
  recent : List Stage := []
  used : List Column := []
  live : Bool := false

namespace Draft

/-- These are the stages from the first to the last. -/
def stages (draft : Draft) : List Stage := draft.recent.reverse

/-- A stage that is drawn makes its draft live. -/
def push (draft : Draft) (stage : Stage) : Draft :=
  { draft with recent := stage :: draft.recent, live := draft.live || stage.isDrawn }

/-- The outer columns frame every block and are not counted as used. -/
def use (draft : Draft) (columns : List Column) : Draft :=
  { draft with
    used := draft.used ++ columns.filter fun column =>
      match column with
      | .outer _ => false
      | _ => true }

/-- A name that is listed already is not listed again. -/
def merge (listed names : List String) : List String :=
  names.foldl (fun listed name => if listed.contains name then listed else listed ++ [name]) listed

/-- Participants that begin, or end, directly behind others in the same mode join their stage. -/
def change (draft : Draft) (change : Change) (names : List String) (mode : Terminator) : Draft :=
  match draft.recent with
  | [] => draft.push (change.stage names mode)
  | newest :: older =>
      match change.names? mode newest with
      | some earlier =>
          { draft with recent := change.stage (merge earlier names) mode :: older, live := true }
      | none => draft.push (change.stage names mode)

/-- Merging keeps all names and adds no others. -/
theorem mem_merge {listed names : List String} {name : String} :
    name ∈ merge listed names ↔ name ∈ listed ∨ name ∈ names := by
  induction names generalizing listed with
  | nil => simp [merge]
  | cons first rest ih =>
      rw [merge, List.foldl_cons, ← merge, ih]
      split
      · next known =>
          have inside : first ∈ listed := List.contains_iff_mem.mp known
          grind
      · grind

/-- New names, each of which is given once, come behind the names that are there. -/
theorem merge_eq_append {listed names : List String} (distinct : names.Nodup)
    (fresh : ∀ name ∈ names, name ∉ listed) : merge listed names = listed ++ names := by
  induction names generalizing listed with
  | nil => simp [merge]
  | cons first rest ih =>
      have absent : ¬listed.contains first = true := by
        simpa using fresh first List.mem_cons_self
      have others : ∀ name ∈ rest, name ∉ listed ++ [first] := by
        intro name member again
        rcases List.mem_append.mp again with old | same
        · exact fresh name (List.mem_cons_of_mem first member) old
        · rw [List.mem_singleton.mp same] at member
          exact (List.nodup_cons.mp distinct).1 member
      rw [merge, List.foldl_cons, if_neg absent, ← merge, ih (List.nodup_cons.mp distinct).2 others,
        List.append_assoc, List.singleton_append]

@[simp] theorem stages_push (draft : Draft) (stage : Stage) :
    (draft.push stage).stages = draft.stages ++ [stage] := by
  simp [push, stages]

@[simp] theorem stages_use (draft : Draft) (columns : List Column) :
    (draft.use columns).stages = draft.stages := rfl

end Draft

end Lifeline
