import Mathlib.Data.List.Forall2
import Mathlib.Data.List.Nodup
import Lifeline.Ledger
import Lifeline.Proofs.Visibility

/-! What is done to a ledger by numbers is done to the columns that it shows. -/

namespace Lifeline

/-- Two items that are related can be put at one place of related lists. -/
theorem forall₂_insertIdx {A B : Type} {related : A → B → Prop} {items : List A}
    {before after : List B} {item : A} {other : B} (all : items.Forall₂ related (before ++ after))
    (new : related item other) :
    (items.insertIdx before.length item).Forall₂ related (before ++ other :: after) := by
  induction before generalizing items with
  | nil => exact .cons new all
  | cons first rest ih =>
      cases all with
      | cons here all => exact .cons here (ih all)

theorem exists_of_mem_forall₂ {A B : Type} {related : A → B → Prop} {items : List A}
    {others : List B} (all : items.Forall₂ related others) {item : A} (member : item ∈ items) :
    ∃ other ∈ others, related item other := by
  induction all with
  | nil => exact absurd member List.not_mem_nil
  | cons here _ ih =>
      rcases List.mem_cons.mp member with rfl | member
      · exact ⟨_, List.mem_cons_self, here⟩
      · obtain ⟨other, inside, facts⟩ := ih member
        exact ⟨other, List.mem_cons_of_mem _ inside, facts⟩

/-- An item is found where it stands first. -/
theorem idxOf?_append_cons {A : Type} [DecidableEq A] {before after : List A} {item : A}
    (fresh : item ∉ before) : (before ++ item :: after).idxOf? item = some before.length := by
  induction before with
  | nil => simp [List.idxOf?_cons]
  | cons first rest ih =>
      obtain ⟨other, others⟩ := List.ne_and_not_mem_of_not_mem_cons fresh
      rw [List.cons_append, List.idxOf?_cons, if_neg (by simpa using Ne.symm other), ih others]
      rfl

namespace Column

def kind : Column → ColumnKind
  | .outer _ => .outer
  | .participant _ => .participant
  | .edge _ _ => .edge

/-- Only participants can be visible. -/
def isShown (visible : String → Bool) : Column → Bool
  | .participant name => visible name
  | _ => false

/-- The entry of a column shows it if it is a participant that is visible. -/
def entry (visible : String → Bool) (column : Column) : LedgerEntry :=
  ⟨column.name, column.kind, column.isShown visible⟩

/-- Neither an outer column nor a participant is an edge. -/
theorem named_ne_edge (name : String) (block : Nat) (side : Side) :
    named name ≠ .edge block side := by
  cases free : isReserved name with
  | true =>
      obtain ⟨_, outer⟩ := named_eq_outer free
      simp [outer]
  | false => simp [named_eq_participant free]

/-- A name is known by the column that it stands for. -/
theorem named_inj {first second : String} (same : named first = named second) : first = second := by
  rw [← name_named first, same, name_named]

end Column

namespace Ledger

/-- The numbers stand for the columns, one after another. -/
abbrev Refers (known : List Column) : List Nat → List Column → Prop :=
  List.Forall₂ fun number column => known[number]? = some column

/-- The numbers stand for these columns, in whatever order and however often. -/
structure Marks (known : List Column) (numbers : List Nat) (columns : List Column) : Prop where
  sound : ∀ number ∈ numbers, ∃ column ∈ columns, known[number]? = some column
  complete : ∀ column ∈ columns, ∃ number ∈ numbers, known[number]? = some column

/-- A ledger that knows some columns by their numbers shows some of them in an order. -/
structure Shows (ledger : Ledger) (known columns : List Column) (visible : String → Bool) :
    Prop where
  entries : ledger.entries = known.map (Column.entry visible)
  distinct : known.Nodup
  order : Refers known ledger.order columns
  index : ∀ name number,
    ledger.index.lookup name = some number ↔ known[number]? = some (Column.named name)

section Known

variable {known columns : List Column} {numbers : List Nat} {number other : Nat} {column : Column}

theorem getElem?_append_of_some {A : Type} {items : List A} {place : Nat} {item : A} (more : List A)
    (found : items[place]? = some item) : (items ++ more)[place]? = some item := by
  rw [List.getElem?_append_left (List.getElem?_eq_some_iff.mp found).1, found]

/-- The places of a list with one more item are the old ones and the last one. -/
theorem getElem?_concat_eq_some {A : Type} {items : List A} {place : Nat} {last item : A} :
    (items ++ [last])[place]? = some item ↔
      items[place]? = some item ∨ place = items.length ∧ last = item := by
  rw [List.getElem?_append]
  split
  · next within =>
      have apart : place ≠ items.length := by omega
      simp [apart]
  · next beyond =>
      rw [List.getElem?_eq_none (Nat.le_of_not_lt beyond), List.getElem?_singleton]
      simp only [reduceCtorEq, false_or, Option.ite_none_right_eq_some, Option.some.injEq]
      exact and_congr_left fun _ => by omega

/-- Numbers stand for the same columns when more columns are known. -/
theorem Refers.append_known (refers : Refers known numbers columns) (more : List Column) :
    Refers (known ++ more) numbers columns :=
  refers.imp fun _ _ found => getElem?_append_of_some more found

theorem Refers.marks (refers : Refers known numbers columns) : Marks known numbers columns where
  sound _ member := exists_of_mem_forall₂ refers member
  complete _ member := exists_of_mem_forall₂ refers.flip member

/-- Numbers mark the same columns when more columns are known. -/
theorem Marks.append_known (marks : Marks known numbers columns) (more : List Column) :
    Marks (known ++ more) numbers columns where
  sound number member := (marks.sound number member).imp fun _ found =>
    ⟨found.1, getElem?_append_of_some more found.2⟩
  complete column member := (marks.complete column member).imp fun _ found =>
    ⟨found.1, getElem?_append_of_some more found.2⟩

/-- A column has one number only. -/
theorem number_inj (distinct : known.Nodup) (first : known[number]? = some column)
    (second : known[other]? = some column) : number = other :=
  (List.getElem?_inj (List.getElem?_eq_some_iff.mp first).1 distinct).mp (first.trans second.symm)

/-- A number stands in an order where its column stands. -/
theorem position_eq (distinct : known.Nodup) (refers : Refers known numbers columns)
    (found : known[number]? = some column) : position numbers number = columns.idxOf? column := by
  rw [position]
  induction refers with
  | nil => rfl
  | @cons first here rest others known' _ ih =>
      have same : (first == number) = (here == column) := by
        rw [Bool.eq_iff_iff, beq_iff_eq, beq_iff_eq]
        constructor
        · rintro rfl
          exact Option.some.inj (known'.symm.trans found)
        · rintro rfl
          exact number_inj distinct known' found
      rw [List.idxOf?_cons, List.idxOf?_cons, same, ih]

end Known

namespace Shows

variable {ledger : Ledger} {known columns before after : List Column} {visible : String → Bool}
  {number neighbour : Nat} {column : Column}

/-- The ledger begins with the two outer columns. -/
theorem start : Ledger.start.Shows [.outer .left, .outer .right] [.outer .left, .outer .right]
    fun _ => false where
  entries := rfl
  distinct := by decide
  order := .cons rfl (.cons rfl .nil)
  index name number := by
    have index : Ledger.start.index = [("]", 1), ("[", 0)] := rfl
    have numbers (column : Column) : [Column.outer .left, .outer .right][number]? = some column ↔
        0 = number ∧ Column.outer .left = column ∨ 1 = number ∧ Column.outer .right = column := by
      match number with
      | 0 => simp
      | 1 => simp
      | number + 2 => simp
    rw [index, numbers, List.lookup_cons, List.lookup_cons, List.lookup_nil, Column.named]
    by_cases left : name = "["
    · simp [left, Side.bracket]
    · by_cases right : name = "]"
      · simp [right, Side.bracket]
      · simp [left, right, Side.bracket, beq_eq_false_iff_ne.mpr left, beq_eq_false_iff_ne.mpr right]

theorem getElem?_entries (shows : ledger.Shows known columns visible)
    (found : known[number]? = some column) :
    ledger.entries[number]? = some (column.entry visible) := by
  rw [shows.entries, List.getElem?_map, found]
  rfl

/-- The entry of a number is that of its column. -/
theorem entry_eq (shows : ledger.Shows known columns visible)
    (found : known[number]? = some column) : ledger.entry number = .ok (column.entry visible) := by
  rw [Ledger.entry, shows.getElem?_entries found]

/-- The name of a number is that of its column. -/
theorem name_eq (shows : ledger.Shows known columns visible)
    (found : known[number]? = some column) : ledger.name number = .ok column.name := by
  rw [Ledger.name, shows.entry_eq found]
  rfl

/-- The last place is that of the last column. -/
theorem lastPlace_eq (shows : ledger.Shows known columns visible) (filled : columns ≠ []) :
    ledger.lastPlace = .ok (columns.length - 1) := by
  have length := shows.order.length_eq
  have positive := List.length_pos_of_ne_nil filled
  obtain ⟨count, size⟩ : ∃ count, columns.length = count + 1 := ⟨columns.length - 1, by omega⟩
  rw [lastPlace, length, size]
  rfl

/-- A column that is known can be put anywhere into the order. -/
theorem insertAt_eq (shows : ledger.Shows known (before ++ after) visible)
    (found : known[number]? = some column) :
    ∃ next, ledger.insertAt before.length number = .ok next ∧
      next.Shows known (before ++ column :: after) visible := by
  have length := shows.order.length_eq
  rw [List.length_append] at length
  refine ⟨_, if_pos (by omega), shows.entries, shows.distinct, ?_, shows.index⟩
  exact forall₂_insertIdx shows.order found

/-- A column that is entered gets the next number, but no place. -/
theorem pushed (shows : ledger.Shows known columns visible) (index : List (String × Nat))
    (fresh : column ∉ known) (hidden : column.isShown visible = false)
    (listed : ∀ name number, index.lookup name = some number ↔
      (known ++ [column])[number]? = some (Column.named name)) :
    (ledger.push column.name column.kind).2 = known.length ∧
      Shows { (ledger.push column.name column.kind).1 with index } (known ++ [column]) columns
        visible := by
  refine ⟨by rw [push, shows.entries, List.length_map], ?_, ?_, shows.order.append_known _, listed⟩
  · rw [push, shows.entries, List.map_append, List.map_singleton, Column.entry, hidden]
  · simpa [List.nodup_append'] using ⟨shows.distinct, fresh⟩

/-- The edge of a block gets the next number and no place. -/
theorem push_edge (shows : ledger.Shows known columns visible) {block : Nat} {side : Side}
    (fresh : Column.edge block side ∉ known) :
    (ledger.push (Column.edge block side).name .edge).2 = known.length ∧
      (ledger.push (Column.edge block side).name .edge).1.Shows
        (known ++ [.edge block side]) columns visible := by
  refine shows.pushed ledger.index fresh rfl fun name number => ?_
  have other := Column.named_ne_edge name block side
  rw [getElem?_concat_eq_some, ← shows.index]
  simp [other.symm]

/-- A participant that is enlisted can be looked up from then on. -/
theorem enlist_participant (shows : ledger.Shows known columns visible) {name : String}
    (fresh : Column.named name ∉ known) (free : Column.isReserved name = false)
    (hidden : visible name = false) :
    (ledger.enlist name .participant).2 = known.length ∧
      (ledger.enlist name .participant).1.Shows (known ++ [Column.named name]) columns visible := by
  have participant := Column.named_eq_participant free
  rw [participant] at fresh ⊢
  refine shows.pushed _ fresh hidden fun other number => ?_
  have next : ledger.entries.length = known.length := by rw [shows.entries, List.length_map]
  change ((name, ledger.entries.length) :: ledger.index).lookup other = some number ↔ _
  rw [next, getElem?_concat_eq_some, ← shows.index, List.lookup_cons, ← participant]
  cases same : other == name with
  | true =>
      obtain rfl := beq_iff_eq.mp same
      have unlisted : ledger.index.lookup other ≠ some number := fun listed =>
        fresh (participant ▸ List.mem_of_getElem? ((shows.index other number).mp listed))
      simp [unlisted, eq_comm]
  | false =>
      have apart : Column.named name ≠ Column.named other := fun shared =>
        beq_eq_false_iff_ne.mp same (Column.named_inj shared).symm
      simp [apart]

/-- A number stands for every column of the order. -/
theorem exists_number (shows : ledger.Shows known columns visible) {place : Nat}
    (here : columns[place]? = some column) :
    ∃ number, ledger.order[place]? = some number ∧ known[number]? = some column := by
  obtain ⟨within, rfl⟩ := List.getElem?_eq_some_iff.mp here
  have length := shows.order.length_eq
  exact ⟨ledger.order[place], List.getElem?_eq_getElem (by omega),
    shows.order.get (by omega) within⟩

/-- Whatever has a place is known. -/
theorem mem_known (shows : ledger.Shows known columns visible) (member : column ∈ columns) :
    column ∈ known := by
  obtain ⟨number, _, found⟩ := shows.order.marks.complete column member
  exact List.mem_of_getElem? found

/-- The number at a place stands for the column at that place. -/
theorem numberAt_eq (shows : ledger.Shows known columns visible) {place : Nat}
    (here : columns[place]? = some column) :
    ∃ number, ledger.numberAt place = .ok number ∧ known[number]? = some column := by
  obtain ⟨number, stands, found⟩ := shows.exists_number here
  exact ⟨number, by rw [numberAt, stands], found⟩

section Beside

variable (spare : Nat → Except Slip Nat)

/-- A column beside which another one is put has a place, and so the spare does not matter. -/
theorem insertBefore_eq {other : Column}
    (shows : ledger.Shows known (before ++ other :: after) visible)
    (single : other ∉ before) (found : known[number]? = some column)
    (foundOther : known[neighbour]? = some other) :
    ∃ next, ledger.insertBefore spare number neighbour = .ok next ∧
      next.Shows known (before ++ column :: other :: after) visible := by
  have place := (position_eq shows.distinct shows.order foundOther).trans (idxOf?_append_cons single)
  rw [insertBefore, shows.lastPlace_eq (by simp), Except.bind, place]
  exact shows.insertAt_eq found

/-- A number that is put behind another one puts its column behind the other column. -/
theorem insertBehind_eq {other : Column}
    (shows : ledger.Shows known (before ++ other :: after) visible)
    (single : other ∉ before) (found : known[number]? = some column)
    (foundOther : known[neighbour]? = some other) :
    ∃ next, ledger.insertBehind spare number neighbour = .ok next ∧
      next.Shows known (before ++ other :: column :: after) visible := by
  have place := (position_eq shows.distinct shows.order foundOther).trans (idxOf?_append_cons single)
  have split : before ++ other :: after = (before ++ [other]) ++ after := by simp
  rw [insertBehind, shows.lastPlace_eq (by simp), Except.bind, place]
  rw [split] at shows
  have inserted := shows.insertAt_eq found
  rw [List.length_append] at inserted
  simpa using inserted

end Beside

end Shows

end Ledger

end Lifeline
