import Lifeline.Compile
import Lifeline.Proofs.Listing

/-! Columns have different names unless a participant is named like an edge. -/

namespace Lifeline

theorem except_toOption_eq_some {Reason A : Type} {result : Except Reason A} {value : A} :
    result.toOption = some value ↔ result = .ok value := by
  cases result <;> simp [Except.toOption]

namespace Column

theorem edge?_eq_some {column : Column} {block : Nat} {side : Side} :
    column.edge? = some (block, side) ↔ column = .edge block side := by
  cases column <;> simp [edge?]

/-- Columns are all different if the participants among them are, and the edges as well. -/
theorem nodup_of_parts {columns : List Column} (framed : ∀ side, outer side ∉ columns)
    (participants : (columns.filterMap participant?).Nodup)
    (edges : (columns.filterMap edge?).Nodup) : columns.Nodup := by
  induction columns with
  | nil => exact List.nodup_nil
  | cons column rest ih =>
      have framedRest : ∀ side, outer side ∉ rest := fun side member =>
        framed side (List.mem_cons_of_mem _ member)
      cases column with
      | outer side => exact absurd List.mem_cons_self (framed side)
      | participant own =>
          have parts : (own :: rest.filterMap participant?).Nodup := participants
          obtain ⟨fresh, others⟩ := List.nodup_cons.mp parts
          have absent : participant own ∉ rest := fun member =>
            fresh (List.mem_filterMap.mpr ⟨_, member, rfl⟩)
          exact List.nodup_cons.mpr ⟨absent, ih framedRest others edges⟩
      | edge block side =>
          have parts : ((block, side) :: rest.filterMap edge?).Nodup := edges
          obtain ⟨fresh, others⟩ := List.nodup_cons.mp parts
          have absent : edge block side ∉ rest := fun member =>
            fresh (List.mem_filterMap.mpr ⟨_, member, rfl⟩)
          exact List.nodup_cons.mpr ⟨absent, ih framedRest participants others⟩

/-- An edge never bears the name of an outer column. -/
theorem isReserved_name_edge (block : Nat) (side : Side) :
    isReserved (edge block side).name = false := by
  have special := isEdgeName_name_edge block side
  rw [isReserved, Bool.or_eq_false_iff, beq_eq_false_iff_ne, beq_eq_false_iff_ne]
  constructor
  · intro same
    rw [same] at special
    exact absurd special (by decide)
  · intro same
    rw [same] at special
    exact absurd special (by decide)

end Column

namespace Roster

variable {roster : Roster}

/-- The edges of a roster are those among its inner columns. -/
theorem mem_edges {block : Nat} {side : Side} :
    (block, side) ∈ roster.edges ↔ Column.edge block side ∈ roster.inner := by
  simp [edges, Column.edge?_eq_some]

/-- A roster is proper if every column has one place in it, and no inner one is an outer one by its
kind or by its name. -/
structure Proper (roster : Roster) : Prop where
  framed : ∀ side, Column.outer side ∉ roster.inner
  free : ∀ name ∈ roster.participants, Column.isReserved name = false
  distinct : roster.inner.Nodup

namespace Proper

/-- No inner column is named by a bracket. -/
theorem free_of_mem (proper : roster.Proper) {column : Column} (member : column ∈ roster.inner) :
    Column.isReserved column.name = false := by
  cases column with
  | outer side => exact absurd member (proper.framed side)
  | participant name => exact proper.free name (mem_participants.mpr member)
  | edge block side => exact Column.isReserved_name_edge block side

/-- Inner columns of one name are the same column, unless a participant is named like an edge. -/
theorem eq_of_name_eq (proper : roster.Proper)
    (apart : ∀ edge ∈ roster.edges, (Column.edge edge.1 edge.2).name ∉ roster.participants)
    {first second : Column} (firstIn : first ∈ roster.inner) (secondIn : second ∈ roster.inner)
    (same : first.name = second.name) : first = second := by
  cases first with
  | outer side => exact absurd firstIn (proper.framed side)
  | participant name =>
      cases second with
      | outer side => exact absurd secondIn (proper.framed side)
      | participant other => exact congrArg Column.participant same
      | edge block side =>
          have shared : (Column.edge block side).name ∈ roster.participants := by
            rw [← same]
            exact mem_participants.mpr firstIn
          exact absurd shared (apart (block, side) (mem_edges.mpr secondIn))
  | edge block side =>
      cases second with
      | outer side => exact absurd secondIn (proper.framed side)
      | participant other =>
          have shared : (Column.edge block side).name ∈ roster.participants := by
            rw [same]
            exact mem_participants.mpr secondIn
          exact absurd shared (apart (block, side) (mem_edges.mpr firstIn))
      | edge other otherSide =>
          have numbers := @Column.name_edge_injective (block, side) (other, otherSide) same
          rw [(Prod.mk.inj numbers).1, (Prod.mk.inj numbers).2]

/-- The inner columns have different names exactly if no participant is named like an edge. -/
theorem nodup_inner_names_iff (proper : roster.Proper) :
    (roster.inner.map Column.name).Nodup ↔
      ∀ edge ∈ roster.edges, (Column.edge edge.1 edge.2).name ∉ roster.participants := by
  rw [List.nodup_map_iff_inj_on proper.distinct]
  constructor
  · intro injective edge edgeIn participantIn
    have same := injective _ (mem_edges.mp edgeIn) _ (mem_participants.mp participantIn) rfl
    contradiction
  · intro apart first firstIn second secondIn same
    exact proper.eq_of_name_eq apart firstIn secondIn same

/-- The names of the columns are all different exactly if no participant is named like an edge. -/
theorem nodup_names_iff (proper : roster.Proper) :
    (roster.columns.map Column.name).Nodup ↔
      ∀ edge ∈ roster.edges, (Column.edge edge.1 edge.2).name ∉ roster.participants := by
  rw [← proper.nodup_inner_names_iff]
  have inside (name : String) (member : name ∈ roster.inner.map Column.name) :
      Column.isReserved name = false := by
    obtain ⟨column, inner, rfl⟩ := List.mem_map.mp member
    exact proper.free_of_mem inner
  have left : "[" ∉ roster.inner.map Column.name := fun member =>
    absurd (inside _ member) (by decide)
  have right : "]" ∉ roster.inner.map Column.name := fun member =>
    absurd (inside _ member) (by decide)
  rw [map_name_columns, List.cons_append, List.nodup_cons, List.nodup_append']
  constructor
  · intro distinct
    exact distinct.2.1
  · intro distinct
    refine ⟨?_, distinct, List.nodup_singleton _, ?_⟩
    · simpa using left
    · simpa [List.disjoint_singleton] using right

end Proper

end Roster

namespace Assembly

/-- What a document leads to lists the participants that the document mentions, and everything in
the diagram of the document is there. -/
theorem final_of_assemble {document : Document} {diagram : Diagram}
    (assembled : document.assemble = .ok diagram) :
    ∃ final : Assembly, Moves {} final ∧ final.Lists document.mentioned ∧
      diagram.columns = final.roster.columns.map Column.name ∧
      Stage.walkAll diagram.stages = final.written := by
  obtain ⟨last, ran, closed, rfl⟩ := assemble_eq_ok assembled
  have outermost : (last.ended document.header).frames = [] :=
    (last.frames_change _ _ _).trans closed
  exact ⟨last.ended document.header, (moves_run ran).tail (.change last .leave _ _ (by simp)),
    (lists_document ran).congr (inner_change _ _ _ _), rfl,
    (written_of_frames_eq_nil outermost).symm⟩

/-- The roster of a sound assembly is proper. -/
theorem Sound.proper {assembly : Assembly} {names : List String} (sound : assembly.Sound)
    (lists : assembly.Lists names) : assembly.roster.Proper where
  framed := sound.framed
  free := by
    intro name member
    rw [lists] at member
    exact (Column.mem_listed.mp member).2
  distinct := by
    have participants : assembly.roster.participants.Nodup := by
      rw [lists]
      exact nodup_eraseDups _
    exact Column.nodup_of_parts sound.framed participants
      (List.nodup_append'.mp sound.numbered.1).2.1

/-- The edges of the blocks in a diagram are those among its columns. -/
theorem Sound.mem_edges_iff {assembly : Assembly} (sound : assembly.Sound) {name : String} :
    name ∈ assembly.written.flatMap Stage.edges ↔
      ∃ edge ∈ assembly.roster.edges, (Column.edge edge.1 edge.2).name = name := by
  rw [← sound.edged.mem_iff, List.mem_map]

end Assembly

/-- The diagram of a source is that of the document that is read from it. -/
theorem compile_eq_ok {header : Header} {source : String} {diagram : Diagram} :
    compile header source = .ok diagram ↔
      ∃ document, parse header source = .ok document ∧ document.assemble = .ok diagram := by
  rw [compile]
  cases parse header source with
  | error complaint => simp
  | ok document => cases made : document.assemble <;> simp [Except.mapError, made]

/-- No name occurs twice in the columns of a diagram exactly if its source mentions nobody by the
name of an edge of a block in the diagram. -/
theorem nodup_columns_compile_iff {header : Header} {source : String} {document : Document}
    {diagram : Diagram} (parsed : parse header source = .ok document)
    (compiled : compile header source = .ok diagram) :
    diagram.columns.Nodup ↔
      ∀ name ∈ document.mentioned, name ∉ (Stage.walkAll diagram.stages).flatMap Stage.edges := by
  obtain ⟨read, parsedToo, assembled⟩ := compile_eq_ok.mp compiled
  obtain rfl : read = document := Except.ok.inj (parsedToo.symm.trans parsed)
  obtain ⟨final, moves, lists, columns, written⟩ := Assembly.final_of_assemble assembled
  have sound := Assembly.sound_of_moves moves
  rw [columns, (sound.proper lists).nodup_names_iff, written]
  constructor
  · intro apart name mentioned edge
    obtain ⟨kept, keptIn, rfl⟩ := sound.mem_edges_iff.mp edge
    refine apart kept keptIn ?_
    rw [lists]
    exact Column.mem_listed.mpr ⟨mentioned, Column.isReserved_name_edge _ _⟩
  · intro apart kept keptIn participant
    rw [lists] at participant
    exact apart _ (Column.mem_listed.mp participant).1 (sound.mem_edges_iff.mpr ⟨kept, keptIn, rfl⟩)

theorem nodup_columns_compile_iff_retry :
    ∃ document diagram,
      parse {} "if busy\nA -> B\nelse: free\nB -> A\nend\n" = .ok document ∧
        compile {} "if busy\nA -> B\nelse: free\nB -> A\nend\n" = .ok diagram ∧
          (diagram.columns.Nodup ↔ ∀ name ∈ document.mentioned,
            name ∉ (Stage.walkAll diagram.stages).flatMap Stage.edges) := by
  have compiles :
      (compile {} "if busy\nA -> B\nelse: free\nB -> A\nend\n").toOption.isSome = true := by
    decide +kernel
  obtain ⟨diagram, found⟩ := Option.isSome_iff_exists.mp compiles
  have compiled := except_toOption_eq_some.mp found
  obtain ⟨document, parsed, _⟩ := compile_eq_ok.mp compiled
  exact ⟨document, diagram, parsed, compiled, nodup_columns_compile_iff parsed compiled⟩

/-- A participant can be named like an edge of a block, and then the name stands for two columns. -/
theorem compile_namesake :
    ∃ diagram, compile {} "if x\n__BLOCK0[ -> A\nend\n" = .ok diagram ∧
      ¬diagram.columns.Nodup := by
  have columns : (compile {} "if x\n__BLOCK0[ -> A\nend\n").toOption.map Diagram.columns =
      some ["[", "__BLOCK0[", "__BLOCK0[", "A", "__BLOCK0]", "]"] := by
    decide +kernel
  obtain ⟨diagram, found, listed⟩ := Option.map_eq_some_iff.mp columns
  refine ⟨diagram, except_toOption_eq_some.mp found, ?_⟩
  rw [listed]
  decide

end Lifeline
