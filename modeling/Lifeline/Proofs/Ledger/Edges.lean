import Lifeline.Proofs.Ledger.Rosters

/-! The edges of a block get the places in a ledger that they have in the roster. -/

namespace Lifeline

namespace Ledger

variable {known columns used before after : List Column} {numbers : List Nat} {column : Column}
  {visible : String → Bool} {ledger : Ledger} {roster : Roster}

/-- The placed numbers are those among the used ones that stand in the order. -/
theorem mem_placed {order : List Nat} {pair : Nat × Nat} :
    pair ∈ placed order numbers ↔ pair.2 ∈ numbers ∧ position order pair.2 = some pair.1 := by
  obtain ⟨place, number⟩ := pair
  rw [placed, List.mem_filterMap]
  constructor
  · rintro ⟨other, member, stands⟩
    obtain ⟨_, position, same⟩ := Option.map_eq_some_iff.mp stands
    obtain ⟨rfl, rfl⟩ := Prod.mk.inj same
    exact ⟨member, position⟩
  · rintro ⟨member, position⟩
    exact ⟨number, member, by rw [position]; rfl⟩

/-- What has a place is a used column at this place. -/
theorem Shows.column_of_placed (shows : ledger.Shows known columns visible)
    (marks : Marks known numbers used) {pair : Nat × Nat}
    (member : pair ∈ placed ledger.order numbers) :
    ∃ column ∈ used, known[pair.2]? = some column ∧ columns[pair.1]? = some column := by
  obtain ⟨inside, stands⟩ := mem_placed.mp member
  obtain ⟨column, hit, found⟩ := marks.sound _ inside
  rw [position_eq shows.distinct shows.order found] at stands
  obtain ⟨within, here, _⟩ := List.idxOf?_eq_some_iff.mp stands
  exact ⟨column, hit, found, List.getElem?_eq_some_iff.mpr ⟨within, here⟩⟩

/-- A used column has a placed number. -/
theorem Shows.exists_placed (shows : ledger.Shows known (before ++ column :: after) visible)
    (distinct : (before ++ column :: after).Nodup) (marks : Marks known numbers used)
    (hit : column ∈ used) : ∃ number, (before.length, number) ∈ placed ledger.order numbers := by
  obtain ⟨number, member, found⟩ := marks.complete column hit
  have fresh : column ∉ before := fun again =>
    (List.nodup_append'.mp distinct).2.2 again List.mem_cons_self
  exact ⟨number, mem_placed.mpr ⟨member,
    (position_eq shows.distinct shows.order found).trans (idxOf?_append_cons fresh)⟩⟩

/-- The first number of all that have a place stands for the first used column. -/
theorem Shows.first_eq (shows : ledger.Shows known (before ++ column :: after) visible)
    (distinct : (before ++ column :: after).Nodup) (marks : Marks known numbers used)
    (clean : ∀ other ∈ before, other ∉ used) (hit : column ∈ used) :
    ∃ place number, (placed ledger.order numbers).minOn? Prod.fst = some (place, number) ∧
      known[number]? = some column := by
  obtain ⟨number, member⟩ := shows.exists_placed distinct marks hit
  obtain ⟨least, chosen, below⟩ : ∃ least, (placed ledger.order numbers).minOn? Prod.fst =
      some least ∧ least.1 ≤ before.length :=
    ⟨_, List.minOn?_eq_some_minOn (List.ne_nil_of_mem member), List.apply_minOn_le_of_mem member⟩
  obtain ⟨other, hitOther, found, here⟩ := shows.column_of_placed marks (List.minOn?_mem chosen)
  refine ⟨least.1, least.2, chosen, ?_⟩
  -- Nothing in front of the column is used, and so no smaller place is taken.
  rcases Nat.lt_or_eq_of_le below with earlier | same
  · rw [List.getElem?_append_left earlier] at here
    exact absurd hitOther (clean other (List.mem_of_getElem? here))
  · rw [same, List.getElem?_append_right (Nat.le_refl _), Nat.sub_self] at here
    rw [found, Option.some.inj here]

/-- The last number of all that have a place stands for the last used column. -/
theorem Shows.last_eq (shows : ledger.Shows known (before ++ column :: after) visible)
    (distinct : (before ++ column :: after).Nodup) (marks : Marks known numbers used)
    (clean : ∀ other ∈ after, other ∉ used) (hit : column ∈ used) :
    ∃ place number, (placed ledger.order numbers).maxOn? Prod.fst = some (place, number) ∧
      known[number]? = some column := by
  obtain ⟨number, member⟩ := shows.exists_placed distinct marks hit
  obtain ⟨greatest, chosen, above⟩ : ∃ greatest, (placed ledger.order numbers).maxOn? Prod.fst =
      some greatest ∧ before.length ≤ greatest.1 :=
    ⟨_, List.maxOn?_eq_some_maxOn (List.ne_nil_of_mem member),
      List.le_apply_maxOn_of_mem (f := Prod.fst) member⟩
  obtain ⟨other, hitOther, found, here⟩ := shows.column_of_placed marks (List.maxOn?_mem chosen)
  refine ⟨greatest.1, greatest.2, chosen, ?_⟩
  rcases Nat.lt_or_eq_of_le above with later | same
  · rw [List.append_cons, List.getElem?_append_right (by simp; omega)] at here
    exact absurd hitOther (clean other (List.mem_of_getElem? here))
  · rw [← same, List.getElem?_append_right (Nat.le_refl _), Nat.sub_self] at here
    rw [found, Option.some.inj here]

section Enclosing

variable (spare : Nat → Except Slip Nat) {left right : Nat} {leftEdge rightEdge : Column}

/-- The edges of a block are put around the part that begins and ends with a used column. -/
theorem Shows.enclose_used {front middle back : List Column} {first last : Column}
    (shows : ledger.Shows known (front ++ middle ++ back) visible)
    (distinct : (front ++ middle ++ back).Nodup) (foundLeft : known[left]? = some leftEdge)
    (foundRight : known[right]? = some rightEdge) (fresh : leftEdge ∉ middle)
    (marks : Marks known numbers used) (clean : ∀ column ∈ front ++ back, column ∉ used)
    (head : first ∈ middle.head?) (hitFirst : first ∈ used) (tail : last ∈ middle.getLast?)
    (hitLast : last ∈ used) :
    ∃ next, ledger.enclose spare left right numbers = .ok next ∧
      next.Shows known (front ++ leftEdge :: middle ++ rightEdge :: back) visible := by
  obtain ⟨rest, begins⟩ := List.head?_eq_some_iff.mp head
  obtain ⟨body, ends⟩ := List.getLast?_eq_some_iff.mp tail
  have fromFirst : front ++ middle ++ back = front ++ first :: (rest ++ back) := by simp [begins]
  have fromLast : front ++ middle ++ back = (front ++ body) ++ last :: back := by simp [ends]
  obtain ⟨_, firstNumber, least, foundFirst⟩ := (fromFirst ▸ shows).first_eq (fromFirst ▸ distinct)
    marks (fun other member => clean other (List.mem_append_left _ member)) hitFirst
  obtain ⟨_, lastNumber, greatest, foundLast⟩ := (fromLast ▸ shows).last_eq (fromLast ▸ distinct)
    marks (fun other member => clean other (List.mem_append_right _ member)) hitLast
  have singleFirst : first ∉ front := fun again =>
    (List.nodup_append'.mp (fromFirst ▸ distinct)).2.2 again List.mem_cons_self
  obtain ⟨next, inserted, shown⟩ :=
    (fromFirst ▸ shows).insertBefore_eq spare singleFirst foundLeft foundFirst
  have onward : front ++ leftEdge :: first :: (rest ++ back) =
      (front ++ leftEdge :: body) ++ last :: back := by
    rw [← List.cons_append, ← begins, ends]
    simp
  have singleLast : last ∉ front ++ leftEdge :: body := by
    have apart : last ∉ front ++ body := fun again =>
      (List.nodup_append'.mp (fromLast ▸ distinct)).2.2 again List.mem_cons_self
    have other : last ≠ leftEdge := fun same => fresh (same ▸ List.mem_of_getLast? tail)
    simp only [List.mem_append, List.mem_cons, not_or] at apart ⊢
    exact ⟨apart.1, other, apart.2⟩
  obtain ⟨final, insertedToo, shownToo⟩ :=
    (onward ▸ shown).insertBehind_eq spare singleLast foundRight foundLast
  refine ⟨final, ?_, ?_⟩
  · rw [enclose, least, greatest]
    dsimp only
    rw [inserted, Except.bind, insertedToo]
  · have enclosed : front ++ leftEdge :: middle ++ rightEdge :: back =
        (front ++ leftEdge :: body) ++ last :: rightEdge :: back := by simp [ends]
    rw [enclosed]
    exact shownToo

/-- Without a used column the edges of a block are put beside the outermost columns. -/
theorem Shows.enclose_unused {outerLeft outerRight : Column} {inner : List Column}
    (shows : ledger.Shows known (outerLeft :: inner ++ [outerRight]) visible)
    (distinct : (outerLeft :: inner ++ [outerRight]).Nodup)
    (foundLeft : known[left]? = some leftEdge) (foundRight : known[right]? = some rightEdge)
    (fresh : leftEdge ≠ outerRight) :
    ∃ next, ledger.enclose spare left right [] = .ok next ∧
      next.Shows known (outerLeft :: leftEdge :: inner ++ [rightEdge, outerRight]) visible := by
  have foremost : (outerLeft :: inner ++ [outerRight])[0]? = some outerLeft := rfl
  obtain ⟨outerFirst, numberFirst, foundFirst⟩ := shows.numberAt_eq foremost
  have final : (outerLeft :: inner ++ [outerRight])[inner.length + 1]? = some outerRight := by simp
  obtain ⟨outerLast, numberLast, foundLast⟩ := shows.numberAt_eq final
  have length : (outerLeft :: inner ++ [outerRight]).length - 1 = inner.length + 1 := by simp
  have behind : ledger.Shows known ([] ++ outerLeft :: (inner ++ [outerRight])) visible := shows
  obtain ⟨next, inserted, shown⟩ :=
    behind.insertBehind_eq spare List.not_mem_nil foundLeft foundFirst
  have single : outerRight ∉ outerLeft :: leftEdge :: inner := by
    have apart : outerRight ∉ outerLeft :: inner := fun again =>
      (List.nodup_append'.mp distinct).2.2 again List.mem_cons_self
    simp only [List.mem_cons, not_or] at apart ⊢
    exact ⟨apart.1, fresh.symm, apart.2⟩
  have before : next.Shows known ((outerLeft :: leftEdge :: inner) ++ [outerRight]) visible := shown
  obtain ⟨final, insertedToo, shownToo⟩ := before.insertBefore_eq spare single foundRight foundLast
  have nothing : placed ledger.order [] = [] := rfl
  refine ⟨final, ?_, shownToo⟩
  rw [enclose, nothing, shows.lastPlace_eq (List.cons_ne_nil _ _), length]
  dsimp only [List.minOn?]
  rw [numberFirst]
  simp only [Except.bind]
  rw [numberLast]
  dsimp only
  rw [inserted]
  exact insertedToo

/-- The edges of a block are put around all columns that it uses, and the spare does not matter. -/
theorem Shows.enclose_eq {block : Nat} (shows : ledger.Shows known roster.columns visible)
    (proper : roster.Proper) (foundLeft : known[left]? = some (.edge block .left))
    (foundRight : known[right]? = some (.edge block .right))
    (fresh : ∀ side, .edge block side ∉ roster.inner) (marks : Marks known numbers used)
    (inside : ∀ column ∈ used, column ∈ roster.inner) :
    ∃ next, ledger.enclose spare left right numbers = .ok next ∧
      next.Shows known (roster.enclose block used).columns visible := by
  have distinct := proper.nodup_columns
  obtain ⟨before, middle, after, split, enclosed, clean, ends⟩ := roster.enclose_eq block used
  have columns : roster.columns = .outer .left :: before ++ middle ++ (after ++ [.outer .right]) := by
    simp [Roster.columns, split]
  have enclosedColumns : (roster.enclose block used).columns = (.outer .left :: before) ++
      .edge block .left :: middle ++ .edge block .right :: (after ++ [.outer .right]) := by
    simp [Roster.columns, enclosed]
  rw [enclosedColumns]
  rcases ends with ⟨⟨first, head, hitFirst⟩, ⟨last, tail, hitLast⟩⟩ | ⟨rfl, rfl, unused⟩
  · have outside (side : Side) : .outer side ∉ used := fun hit =>
      proper.framed side (inside _ hit)
    refine (columns ▸ shows).enclose_used spare (columns ▸ distinct) foundLeft foundRight ?_ marks ?_
      head hitFirst tail hitLast
    · intro within
      exact fresh .left (by simp [split, within])
    · intro column member hit
      simp only [List.cons_append, List.mem_cons, List.mem_append, List.not_mem_nil,
        or_false] at member
      rcases member with rfl | front | back | rfl
      · exact outside .left hit
      · exact clean column (List.mem_append_left _ front) hit
      · exact clean column (List.mem_append_right _ back) hit
      · exact outside .right hit
  · obtain rfl : used = [] := List.eq_nil_iff_forall_not_mem.mpr fun column hit =>
      unused column (inside column hit) hit
    obtain rfl : numbers = [] := List.eq_nil_iff_forall_not_mem.mpr fun number member => by
      obtain ⟨column, hit, _⟩ := marks.sound number member
      exact List.not_mem_nil hit
    have whole : roster.inner = middle := by simpa using split
    have shown : ledger.Shows known (.outer .left :: middle ++ [.outer .right]) visible :=
      whole ▸ shows
    exact shown.enclose_unused spare (whole ▸ distinct) foundLeft foundRight (by simp)

/-- A roster that has its edges around a block is kept by a ledger that has them there. -/
theorem Keeps.enclose {block : Nat} {next : Ledger} (keeps : ledger.Keeps known roster)
    (shows : next.Shows (known ++ [.edge block .left, .edge block .right])
      (roster.enclose block used).columns roster.visible.contains) :
    next.Keeps (known ++ [.edge block .left, .edge block .right]) (roster.enclose block used) where
  shows := by rwa [Roster.visible_enclose]
  placed column member := by
    rcases List.mem_append.mp member with old | new
    · exact Roster.mem_columns_of_inner (fun _ => Roster.mem_inner_enclose block used)
        (keeps.placed column old)
    · have inner : column ∈ (roster.enclose block used).inner := by
        rw [(roster.perm_enclose block used).mem_iff]
        simpa [or_assoc] using Or.inl new
      simp [Roster.columns, inner]
  seen name visible := by
    rw [Roster.visible_enclose] at visible
    exact List.mem_append_left _ (keeps.seen name visible)

end Enclosing

end Ledger

end Lifeline
