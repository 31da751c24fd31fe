import Lifeline.Proofs.Ledger.Columns
import Lifeline.Proofs.UniqueNames
import Lifeline.Proofs.Usage

/-! Looking up names and changing participants keep a ledger with its roster. -/

namespace Lifeline

/-- What succeeds for each item succeeds for all, with results that are related one by one. -/
theorem exists_mapM_of_forall₂ {A B C Reason : Type} {related : A → B → Prop}
    (act : A → Except Reason C) (made : C → B → Prop) {items : List A} {others : List B}
    (all : items.Forall₂ related others)
    (each : ∀ item other, related item other → ∃ value, act item = .ok value ∧ made value other) :
    ∃ values, items.mapM act = .ok values ∧ values.Forall₂ made others := by
  induction all with
  | nil => exact ⟨[], rfl, .nil⟩
  | cons here _ ih =>
      obtain ⟨value, acted, fits⟩ := each _ _ here
      obtain ⟨values, rest, fitAll⟩ := ih
      refine ⟨value :: values, ?_, .cons fits fitAll⟩
      rw [List.mapM_cons, acted, rest]
      rfl

/-- What a fold keeps with the items that it has passed holds of all items at its end. -/
theorem exists_foldlM_of_forall₂ {A B State Reason : Type} {related : A → B → Prop}
    (holds : List B → State → Prop) {act : State → A → Except Reason State} {items : List A}
    {others : List B} {start : State} (all : items.Forall₂ related others) (first : holds [] start)
    (each : ∀ earlier state item other, related item other → holds earlier state →
      ∃ next, act state item = .ok next ∧ holds (earlier ++ [other]) next) :
    ∃ last, items.foldlM act start = .ok last ∧ holds others last := by
  suffices ∀ earlier state, holds earlier state →
      ∃ last, items.foldlM act state = .ok last ∧ holds (earlier ++ others) last from
    this [] start first
  clear first
  induction all with
  | nil =>
      intro earlier state kept
      exact ⟨state, rfl, by rwa [List.append_nil]⟩
  | cons here _ ih =>
      intro earlier state kept
      obtain ⟨next, acted, keptToo⟩ := each _ _ _ _ here kept
      rw [List.foldlM_cons, acted, List.append_cons]
      exact ih _ next keptToo

namespace Column

theorem kind_eq_outer_iff {column : Column} :
    column.kind = .outer ↔ ∃ side, column = .outer side := by
  cases column <;> simp [kind]

/-- An entry depends on the visibility of its own participant only. -/
theorem entry_congr {column : Column} {visible later : String → Bool}
    (same : ∀ name, column = .participant name → later name = visible name) :
    column.entry later = column.entry visible := by
  cases column with
  | participant name => rw [entry, entry, isShown, isShown, same name rfl]
  | _ => rfl

/-- Exactly the reserved names stand for outer columns. -/
theorem kind_named_eq_outer_iff {name : String} :
    (named name).kind = .outer ↔ isReserved name = true := by
  cases free : isReserved name with
  | true =>
      obtain ⟨side, outer⟩ := named_eq_outer free
      simp [outer, kind]
  | false => simp [named_eq_participant free, kind]

end Column

/-- A name at the end is left out if it is there already. -/
theorem eraseDups_concat (names : List String) (name : String) :
    (names ++ [name]).eraseDups =
      if name ∈ names then names.eraseDups else names.eraseDups ++ [name] := by
  rw [List.eraseDups_append]
  split
  · next old => simp [List.removeAll, old]
  · next new => simp [List.removeAll, new, List.eraseDups_cons]

namespace Roster

/-- A name that is asked for last can undergo a change unless it has come before. -/
theorem changeable_concat (roster : Roster) (change : Change) (names : List String) (name : String) :
    roster.changeable change (names ++ [name]) =
      if Column.isReserved name = false ∧ roster.visible.contains name = change.fromVisible ∧
          name ∉ roster.changeable change names
      then roster.changeable change names ++ [name]
      else roster.changeable change names := by
  rw [changeable, List.filter_append]
  by_cases able : Column.isReserved name = false ∧
      roster.visible.contains name = change.fromVisible
  · rw [List.filter_cons_of_pos (by simpa using able), List.filter_nil, eraseDups_concat,
      ← changeable]
    by_cases old : name ∈ names
    · rw [if_pos (by simpa [old] using able),
        if_neg fun all => all.2.2 (mem_changeable.mpr ⟨old, able⟩)]
    · have fresh : name ∉ roster.changeable change names :=
        fun again => old (mem_changeable.mp again).1
      rw [if_neg (by simp [old]), if_pos ⟨able.1, able.2, fresh⟩]
  · rw [List.filter_cons_of_neg (by simpa using able), List.filter_nil, List.append_nil, ← changeable,
      if_neg fun all => able ⟨all.1, all.2.1⟩]

/-- No two columns of a proper roster are the same. -/
theorem Proper.nodup_columns {roster : Roster} (proper : roster.Proper) : roster.columns.Nodup := by
  have left := proper.framed .left
  have right := proper.framed .right
  rw [columns, List.cons_append, List.nodup_cons, List.nodup_append']
  refine ⟨by simpa using left, proper.distinct, List.nodup_singleton _, ?_⟩
  rwa [List.disjoint_singleton]

/-- The visible participants are those among the columns that are shown. -/
theorem Proper.filter_isShown {roster : Roster} (proper : roster.Proper) :
    roster.columns.filter (Column.isShown roster.visible.contains) =
      roster.visibleInOrder.map Column.named := by
  have inner : roster.columns.filter (Column.isShown roster.visible.contains) =
      roster.inner.filter (Column.isShown roster.visible.contains) := by
    simp [columns, Column.isShown]
  rw [inner, visibleInOrder, List.map_filterMap, ← List.filterMap_eq_filter]
  refine List.filterMap_congr fun column member => ?_
  cases column with
  | participant name =>
      have free := proper.free name (mem_participants.mpr member)
      by_cases seen : name ∈ roster.visible <;>
        simp [Option.guard, Column.isShown, seen, Column.named_eq_participant free]
  | _ => rfl

end Roster

namespace Ledger

variable {known columns more : List Column} {numbers chosen : List Nat} {number : Nat}
  {column : Column} {visible : String → Bool} {ledger : Ledger} {roster : Roster}

/-- A number is listed exactly if its column is. -/
theorem Refers.mem_iff (refers : Refers known numbers columns) (distinct : known.Nodup)
    (found : known[number]? = some column) : number ∈ numbers ↔ column ∈ columns := by
  have same := congrArg Option.isSome (position_eq distinct refers found)
  rw [Bool.eq_iff_iff] at same
  simpa [position] using same

/-- Different columns have different numbers. -/
theorem Refers.nodup (refers : Refers known numbers columns) (distinct : columns.Nodup) :
    numbers.Nodup := by
  induction refers with
  | nil => exact List.nodup_nil
  | @cons number column rest others found refers ih =>
      obtain ⟨fresh, distinct⟩ := List.nodup_cons.mp distinct
      refine List.nodup_cons.mpr ⟨fun again => fresh ?_, ih distinct⟩
      obtain ⟨other, inside, foundToo⟩ := exists_of_mem_forall₂ refers again
      rwa [Option.some.inj (found.symm.trans foundToo)]

namespace Marks

/-- Only which columns are marked matters, and not their order. -/
theorem congr (marks : Marks known numbers columns)
    (same : ∀ column, column ∈ columns ↔ column ∈ more) : Marks known numbers more where
  sound number member := (marks.sound number member).imp fun column found =>
    ⟨(same column).mp found.1, found.2⟩
  complete column member := marks.complete column ((same column).mpr member)

/-- What is marked by either of two lists of numbers is marked by both together. -/
theorem union {others : List Nat} {unionNumbers : List Nat} {unionColumns : List Column}
    (marks : Marks known numbers columns) (marksToo : Marks known others more)
    (sameNumbers : ∀ number, number ∈ unionNumbers ↔ number ∈ numbers ∨ number ∈ others)
    (sameColumns : ∀ column, column ∈ unionColumns ↔ column ∈ columns ∨ column ∈ more) :
    Marks known unionNumbers unionColumns where
  sound number member := by
    rcases (sameNumbers number).mp member with member | member
    · obtain ⟨column, inside, found⟩ := marks.sound number member
      exact ⟨column, (sameColumns column).mpr (Or.inl inside), found⟩
    · obtain ⟨column, inside, found⟩ := marksToo.sound number member
      exact ⟨column, (sameColumns column).mpr (Or.inr inside), found⟩
  complete column member := by
    rcases (sameColumns column).mp member with member | member
    · obtain ⟨number, inside, found⟩ := marks.complete column member
      exact ⟨number, (sameNumbers number).mpr (Or.inl inside), found⟩
    · obtain ⟨number, inside, found⟩ := marksToo.complete column member
      exact ⟨number, (sameNumbers number).mpr (Or.inr inside), found⟩

end Marks

/-- A ledger keeps a roster if it shows its columns, and all the columns that it knows are there. -/
structure Keeps (ledger : Ledger) (known : List Column) (roster : Roster) : Prop where
  shows : ledger.Shows known roster.columns roster.visible.contains
  placed : ∀ column ∈ known, column ∈ roster.columns
  seen : ∀ name ∈ roster.visible, Column.named name ∈ known

namespace Keeps

/-- The first ledger keeps the empty roster. -/
theorem start : Ledger.start.Keeps [.outer .left, .outer .right] {} where
  shows := Shows.start
  placed _ member := member
  seen _ member := absurd member List.not_mem_nil

/-- A name that is not listed has no column. -/
theorem fresh_of_unlisted (keeps : ledger.Keeps known roster) {name : String}
    (unlisted : ledger.index.lookup name = none) : Column.named name ∉ known := by
  intro member
  obtain ⟨number, found⟩ := List.getElem?_of_mem member
  rw [(keeps.shows.index name number).mpr found] at unlisted
  contradiction

/-- A name that is not listed gets the next number, and a place in front of the last one. -/
theorem intern_of_unlisted (keeps : ledger.Keeps known roster) {name : String}
    (unlisted : ledger.index.lookup name = none) :
    ∃ next, ledger.intern name = .ok (next, known.length) ∧
      next.Keeps (known ++ [Column.named name]) (roster.register name) := by
  have fresh := keeps.fresh_of_unlisted unlisted
  have absent : Column.named name ∉ roster.columns := fun member =>
    fresh (keeps.shows.mem_known member)
  have free : Column.isReserved name = false := by
    by_contra reserved
    obtain ⟨side, outer⟩ := Column.named_eq_outer (by simpa using reserved)
    exact absent (outer ▸ roster.outer_mem_columns side)
  have hidden : roster.visible.contains name = false := by
    simpa using fun seen => fresh (keeps.seen name seen)
  obtain ⟨number, enlisted⟩ := keeps.shows.enlist_participant fresh free hidden
  have found : (known ++ [Column.named name])[known.length]? = some (Column.named name) := by simp
  obtain ⟨placed, inserted, shown⟩ := enlisted.insertAt_eq found
  have last : roster.columns.length - 1 = (Column.outer .left :: roster.inner).length := by
    simp [Roster.columns]
  have grown : (roster.register name).columns =
      (.outer .left :: roster.inner) ++ [Column.named name, .outer .right] := by
    rw [Roster.register, if_neg absent]
    simp [Roster.columns]
  refine ⟨placed, ?_, ?_, ?_, ?_⟩
  · rw [intern, unlisted]
    dsimp only
    rw [number, enlisted.lastPlace_eq (by simp [Roster.columns]), last, Except.bind, inserted]
    rfl
  · rw [grown, Roster.visible_register]
    exact shown
  · intro column member
    rcases List.mem_append.mp member with old | new
    · exact roster.mem_columns_registerAll [name] (keeps.placed column old)
    · rw [List.mem_singleton.mp new]
      exact roster.named_mem_columns_register name
  · intro other seen
    rw [Roster.visible_register] at seen
    exact List.mem_append_left _ (keeps.seen other seen)

/-- A name that is looked up gets the number of its column, which is entered if it is new. -/
theorem intern_eq (keeps : ledger.Keeps known roster) (name : String) :
    ∃ next number more, ledger.intern name = .ok (next, number) ∧
      next.Keeps (known ++ more) (roster.register name) ∧
      (known ++ more)[number]? = some (Column.named name) := by
  cases listed : ledger.index.lookup name with
  | none =>
      obtain ⟨next, interned, kept⟩ := keeps.intern_of_unlisted listed
      exact ⟨next, known.length, [Column.named name], interned, kept, by simp⟩
  | some number =>
      have found := (keeps.shows.index name number).mp listed
      have present := keeps.placed _ (List.mem_of_getElem? found)
      refine ⟨ledger, number, [], by rw [intern, listed], ?_, ?_⟩
      · rwa [List.append_nil, Roster.register_of_mem present]
      · rwa [List.append_nil]

/-- Looking up names registers them in their order. -/
theorem internAll_eq (keeps : ledger.Keeps known roster) (names : List String) :
    ∃ next numbers more, ledger.internAll names = .ok (next, numbers) ∧
      next.Keeps (known ++ more) (roster.registerAll names) ∧
      Refers (known ++ more) numbers (names.map Column.named) := by
  induction names generalizing ledger known roster with
  | nil => exact ⟨ledger, [], [], rfl, by rwa [List.append_nil], .nil⟩
  | cons name rest ih =>
      obtain ⟨next, number, more, interned, kept, found⟩ := keeps.intern_eq name
      obtain ⟨last, numbers, others, internedAll, keptAll, refers⟩ := ih kept
      rw [List.append_assoc] at keptAll refers
      refine ⟨last, number :: numbers, more ++ others, ?_, keptAll, .cons ?_ refers⟩
      · rw [internAll, interned, Except.bind]
        dsimp only
        rw [internedAll]
        rfl
      · rw [← List.append_assoc]
        exact getElem?_append_of_some others found

/-- A number stands for a reserved name exactly if its entry is that of an outer column. -/
theorem exists_entry (keeps : ledger.Keeps known roster) {name : String}
    (found : known[number]? = some (Column.named name)) :
    ∃ entry, ledger.entry number = .ok entry ∧
      (entry.kind = .outer ↔ Column.isReserved name = true) ∧
      (Column.isReserved name = false → entry.visible = roster.visible.contains name) := by
  refine ⟨_, keeps.shows.entry_eq found, Column.kind_named_eq_outer_iff, fun free => ?_⟩
  rw [Column.named_eq_participant free]
  rfl

/-- A number is chosen if its participant can undergo the change. -/
theorem choose_eq (keeps : ledger.Keeps known roster) (change : Change) {names : List String}
    {name : String}
    (refers : Refers known chosen ((roster.changeable change names).map Column.named))
    (found : known[number]? = some (Column.named name)) :
    ∃ next, ledger.choose change chosen number = .ok next ∧
      Refers known next ((roster.changeable change (names ++ [name])).map Column.named) := by
  obtain ⟨entry, entered, kind, shown⟩ := keeps.exists_entry found
  have listed : number ∈ chosen ↔ name ∈ roster.changeable change names := by
    rw [refers.mem_iff keeps.shows.distinct found,
      List.mem_map_of_injective fun _ _ => Column.named_inj]
  have able : (entry.kind != .outer && entry.visible == change.fromVisible &&
      !chosen.contains number) = true ↔ Column.isReserved name = false ∧
        roster.visible.contains name = change.fromVisible ∧
          name ∉ roster.changeable change names := by
    cases free : Column.isReserved name with
    | true => simp [kind, free]
    | false => simp [kind, free, shown free, listed]
  rw [choose, entered, Except.map, roster.changeable_concat]
  by_cases can : Column.isReserved name = false ∧
      roster.visible.contains name = change.fromVisible ∧ name ∉ roster.changeable change names
  · rw [if_pos (able.mpr can), if_pos can, List.map_append]
    exact ⟨_, rfl, List.rel_append refers (.cons found .nil)⟩
  · rw [if_neg fun chosen => can (able.mp chosen), if_neg can]
    exact ⟨chosen, rfl, refers⟩

/-- The participants that can undergo a change are selected by their numbers. -/
theorem select_eq (keeps : ledger.Keeps known roster) (change : Change) {names : List String}
    (refers : Refers known numbers (names.map Column.named)) :
    ∃ chosen, ledger.select change numbers = .ok chosen ∧
      Refers known chosen ((roster.changeable change names).map Column.named) := by
  refine exists_foldlM_of_forall₂
    (fun earlier chosen => Refers known chosen ((roster.changeable change earlier).map Column.named))
    (List.forall₂_map_right_iff.mp refers) .nil ?_
  intro earlier chosen number name found chosenRefers
  exact keeps.choose_eq change chosenRefers found

end Keeps

/-- A column is counted as used by its number. -/
theorem Shows.mark_eq {draft : Draft} (shows : ledger.Shows known columns visible)
    (marks : Marks known numbers draft.used) (found : known[number]? = some column) :
    ∃ next, ledger.mark numbers number = .ok next ∧
      Marks known next (draft.use [column]).used := by
  have used (other : Column) : other ∈ (draft.use [column]).used ↔
      other ∈ draft.used ∨ other = column ∧ column.kind ≠ .outer := by
    rw [Draft.mem_used_use, List.mem_singleton, Ne, Column.kind_eq_outer_iff, not_exists]
    exact or_congr_right (and_congr_right fun same => by rw [same])
  rw [mark, shows.entry_eq found, Except.map]
  by_cases outer : column.kind = .outer
  · rw [if_pos (by simp [Column.entry, outer])]
    exact ⟨numbers, rfl, marks.congr fun other => by simp [used, outer]⟩
  · by_cases again : number ∈ numbers
    · obtain ⟨known, inside, foundToo⟩ := marks.sound number again
      obtain rfl := Option.some.inj (found.symm.trans foundToo)
      rw [if_pos (by simp [again])]
      exact ⟨numbers, rfl, marks.congr fun other => by
        rw [used]
        exact ⟨Or.inl, fun either => either.elim id fun same => same.1 ▸ inside⟩⟩
    · rw [if_neg (by simp [Column.entry, outer, again])]
      exact ⟨_, rfl, marks.union (Refers.marks (.cons found .nil)) (by simp) fun other => by
        simp [used, outer]⟩

/-- Numbers are marked as used when their columns are used. -/
theorem Shows.markUsed_eq {draft : Draft} (shows : ledger.Shows known columns visible)
    (marks : Marks known chosen draft.used) (refers : Refers known numbers more) :
    ∃ next, ledger.markUsed chosen numbers = .ok next ∧ Marks known next (draft.use more).used := by
  refine exists_foldlM_of_forall₂
    (fun earlier marked => Marks known marked (draft.use earlier).used) refers ?_ ?_
  · simpa [Draft.use] using marks
  · intro earlier marked number column found marks
    rw [← Draft.use_append]
    exact shows.mark_eq marks found

/-- A participant is shown or hidden by its number. -/
theorem Shows.setVisible_eq {later : String → Bool} {name : String}
    (shows : ledger.Shows known columns visible) (found : known[number]? = some (.participant name))
    (others : ∀ other, other ≠ name → later other = visible other) :
    ∃ next, ledger.setVisible (later name) number = .ok next ∧
      next.Shows known columns later := by
  rw [setVisible, shows.entry_eq found, Except.map]
  refine ⟨_, rfl, ?_, shows.distinct, shows.order, shows.index⟩
  dsimp only
  rw [shows.entries]
  apply List.ext_getElem?
  intro place
  rw [List.getElem?_set, List.length_map]
  split
  · next here =>
      rw [if_pos (List.getElem?_eq_some_iff.mp found).1, ← here, List.getElem?_map, found]
      rfl
  · next elsewhere =>
      rw [List.getElem?_map, List.getElem?_map]
      cases there : known[place]? with
      | none => rfl
      | some other =>
          refine congrArg some (Column.entry_congr fun named same => ?_).symm
          refine others named fun again => elsewhere ?_
          exact number_inj shows.distinct found (again ▸ same ▸ there)

namespace Keeps

/-- A change is brought upon a numbered participant. -/
theorem setVisible_eq (keeps : ledger.Keeps known roster) (change : Change) {name : String}
    (found : known[number]? = some (Column.named name))
    (free : Column.isReserved name = false) :
    ∃ next, ledger.setVisible (!change.fromVisible) number = .ok next ∧
      next.Keeps known (roster.change [name] change) := by
  rw [Column.named_eq_participant free] at found
  have here : (roster.change [name] change).visible.contains name = !change.fromVisible := by
    cases change <;> simp [Roster.change, Change.fromVisible]
  have others (other : String) (apart : other ≠ name) :
      (roster.change [name] change).visible.contains other = roster.visible.contains other := by
    cases change <;> simp [Roster.change, apart]
  obtain ⟨next, changed, shows⟩ := keeps.shows.setVisible_eq found others
  rw [here] at changed
  refine ⟨next, changed, ?_, ?_, ?_⟩
  · rw [Roster.columns_change]
    exact shows
  · rw [Roster.columns_change]
    exact keeps.placed
  · intro other seen
    by_cases apart : other = name
    · rw [apart, Column.named_eq_participant free]
      exact List.mem_of_getElem? found
    · have before := others other apart
      rw [List.contains_iff_mem.mpr seen] at before
      exact keeps.seen other (List.contains_iff_mem.mp before.symm)

/-- The visibility of numbers changes as that of their participants. -/
theorem setVisibleAll_eq (keeps : ledger.Keeps known roster) (change : Change) {names : List String}
    (refers : Refers known numbers (names.map Column.named))
    (free : ∀ name ∈ names, Column.isReserved name = false) :
    ∃ next, numbers.foldlM
        (fun (ledger : Ledger) number => ledger.setVisible (!change.fromVisible) number) ledger =
          .ok next ∧ next.Keeps known (roster.change names change) := by
  have ofParticipants : numbers.Forall₂ (fun number name =>
      Column.isReserved name = false ∧ known[number]? = some (Column.named name)) names :=
    ((List.forall₂_and_left names numbers).mpr
      ⟨free, (List.forall₂_map_right_iff.mp refers).flip⟩).flip
  refine exists_foldlM_of_forall₂
    (fun earlier (ledger : Ledger) => ledger.Keeps known (roster.change earlier change))
    ofParticipants ?_ ?_
  · cases change <;> simpa [Roster.change] using keeps
  · intro earlier ledger number name found kept
    rw [← Roster.change_append]
    exact kept.setVisible_eq change found.2 found.1

/-- The visible participants are found by their numbers, in the order of their columns. -/
theorem visibleInOrder_eq (keeps : ledger.Keeps known roster) (proper : roster.Proper) :
    ∃ numbers, ledger.visibleInOrder = .ok numbers ∧
      Refers known numbers (roster.visibleInOrder.map Column.named) := by
  obtain ⟨listed, entered, lists⟩ := exists_mapM_of_forall₂
    (fun number => (ledger.entry number).map fun entry => (number, entry))
    (fun (pair : Nat × LedgerEntry) column => known[pair.1]? = some column ∧
      pair.2 = column.entry roster.visible.contains) keeps.shows.order
    fun number column found => ⟨_, by rw [keeps.shows.entry_eq found]; rfl, found, rfl⟩
  have shown := List.rel_filter (p := fun (pair : Nat × LedgerEntry) =>
      pair.2.kind == .participant && pair.2.visible)
    (q := Column.isShown roster.visible.contains) ?_ lists
  · rw [proper.filter_isShown] at shown
    rw [visibleInOrder, entered]
    exact ⟨_, rfl, List.forall₂_map_left_iff.mpr (shown.imp fun _ _ facts => facts.1)⟩
  · rintro ⟨number, _⟩ column ⟨_, rfl⟩
    cases column <;> simp [Column.entry, Column.kind, Column.isShown]

end Keeps

/-- The names of numbers are those of their columns. -/
theorem Shows.mapM_name_eq (shows : ledger.Shows known columns visible)
    (refers : Refers known numbers more) :
    numbers.mapM ledger.name = .ok (more.map Column.name) := by
  obtain ⟨names, listed, same⟩ := exists_mapM_of_forall₂ ledger.name
    (fun name column => name = column.name) refers
    fun number column found => ⟨column.name, shows.name_eq found, rfl⟩
  have equal : List.Forall₂ Eq names (more.map Column.name) := List.forall₂_map_right_iff.mpr same
  rw [List.forall₂_eq_eq_eq] at equal
  rw [listed, equal]

/-- Names are taken out of the entries once each. -/
theorem takeNames_eq {entries : List LedgerEntry} (refers : Refers known numbers columns)
    (distinct : numbers.Nodup)
    (whole : ∀ number ∈ numbers, ∀ column, known[number]? = some column →
      entries[number]?.map LedgerEntry.name = some column.name) :
    takeNames entries numbers = .ok (columns.map Column.name) := by
  induction refers generalizing entries with
  | nil => rfl
  | @cons number column rest others found refers ih =>
      obtain ⟨entry, stands, named⟩ := Option.map_eq_some_iff.mp
        (whole number List.mem_cons_self column found)
      obtain ⟨fresh, distinct⟩ := List.nodup_cons.mp distinct
      rw [takeNames, stands]
      dsimp only
      rw [ih distinct, named]
      · rfl
      · intro other member column found
        have apart : number ≠ other := fun same => fresh (same ▸ member)
        rw [List.getElem?_set_ne apart]
        exact whole other (List.mem_cons_of_mem _ member) column found

/-- The names are taken out in the order of the columns, and none of them twice. -/
theorem Shows.names_eq (shows : ledger.Shows known columns visible) (distinct : columns.Nodup) :
    ledger.names = .ok (columns.map Column.name) := by
  refine takeNames_eq shows.order (shows.order.nodup distinct) fun number _ column found => ?_
  rw [shows.getElem?_entries found]
  rfl

end Ledger

end Lifeline
