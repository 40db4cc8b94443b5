import BoundedCache.Proofs.Clock.Representation

/-!
# One sweep, cell by cell

A sweep walks the ring and takes nodes out of it while it moves. Read off the cells that represent
a table, it is a rule on lists: the cells up to the first one with a single visit left are turned
to the end with a visit less each, that one is taken out, and where the budget does not reach so
far only as many cells as it allows are turned. Every cell stays in its slot.
-/

namespace BoundedCache.Clock

variable {κ ν : Type}

/-! ## Strokes on cells -/

/-- How cells are split by a stroke can be read off what the stroke does. -/
theorem strokeOf_injective {front rest before after : List (Cell κ ν)}
    {found chosen : Option (Cell κ ν)}
    (same : front ++ (found.toList ++ rest) = before ++ (chosen.toList ++ after))
    (stroke : strokeOf front found rest = strokeOf before chosen after) :
    front = before ∧ found = chosen ∧ rest = after := by
  have passedLengths : front.length = before.length := by
    simpa [strokeOf] using congrArg (fun stroke => stroke.passed.length) stroke
  have foundLengths : found.toList.length = chosen.toList.length := by
    have lengths := congrArg (fun stroke => stroke.victim.toList.length) stroke
    simpa only [strokeOf, Option.toList_map, List.length_map] using lengths
  obtain ⟨sameFront, behind⟩ := List.append_inj same passedLengths
  obtain ⟨sameFound, sameRest⟩ := List.append_inj behind foundLengths
  have sameVictim : found = chosen := by simpa using congrArg List.head? sameFound
  exact ⟨sameFront, sameVictim, sameRest⟩

/-- The stroke on cells of which one in reach has a single visit left. -/
theorem strike_cells_of_light {budget : Nat} {before after : List (Cell κ ν)} {cell : Cell κ ν}
    (heavy : ∀ other ∈ before, 1 < other.2.visits) (light : cell.2.visits ≤ 1)
    (reached : before.length < budget) :
    strike budget ((before ++ cell :: after).map Prod.snd) =
      strokeOf before (some cell) after := by
  rw [List.map_append, List.map_cons,
    strike_of_light (List.forall_mem_map.2 heavy) light (by simpa using reached), strokeOf,
    map_entry_ageCell]
  rfl

/-- The stroke on cells of which none in reach has so few visits. -/
theorem strike_cells_of_heavy {budget : Nat} {cells : List (Cell κ ν)}
    (heavy : ∀ cell ∈ cells.take budget, 1 < cell.2.visits) :
    strike budget (cells.map Prod.snd) =
      strokeOf (cells.take budget) none (cells.drop budget) := by
  have heavyEntries : ∀ entry ∈ (cells.map Prod.snd).take budget, 1 < entry.visits := by
    rw [← List.map_take]
    exact List.forall_mem_map.2 heavy
  rw [strike_of_heavy heavyEntries, strokeOf, map_entry_ageCell, ← List.map_take, ← List.map_drop]
  rfl

/-! ## The rule of a sweep -/

variable [BEq κ]

namespace Table

/-- What one sweep does to a table with these cells, of which it may pass a third and three
more. -/
structure SweepsByRule (table : Table κ ν) (bits : Nat) (cells : List (Cell κ ν))
    (chains : Nat → List Nat) : Prop where
  /-- Without cells nothing changes. -/
  rests : cells = [] → table.sweep = .ok (table, none)
  /-- The first cell in reach with a single visit left is taken out, and those before it are
  turned to the end. -/
  evicts : ∀ before index entry after, cells = before ++ (index, entry) :: after →
    before.length < cells.length / 3 + 3 → entry.visits = 1 →
    (∀ cell ∈ before, cell.2.visits ≠ 1) → ∃ next,
      table.sweep = .ok (next, some entry.age) ∧
      next.Represents bits (after ++ before.map ageCell)
        (fun bucket => (chains bucket).erase index) ∧
      next.size + 1 = table.size ∧
      next.counters = { table.counters with
        core := table.counters.core.countEviction
        sweeps := table.counters.sweeps + 1
        scanned := table.counters.scanned + (before.length + 1) }
  /-- If no cell in reach is like that, all cells in reach are turned to the end. -/
  passes : ∀ budget, cells ≠ [] → budget = cells.length / 3 + 3 →
    (∀ cell ∈ cells.take budget, cell.2.visits ≠ 1) → ∃ next,
      table.sweep = .ok (next, none) ∧
      next.Represents bits (cells.drop budget ++ (cells.take budget).map ageCell) chains ∧
      next.size = table.size ∧
      next.counters = { table.counters with
        sweeps := table.counters.sweeps + 1
        scanned := table.counters.scanned + min budget cells.length
        exhausted := if budget < cells.length then table.counters.exhausted + 1
          else table.counters.exhausted }

section Carries

variable {table : Table κ ν} {bits : Nat} {cells : List (Cell κ ν)} {chains : Nat → List Nat}

/-- A cell that a sweep may pass has more than one visit, since each cell has at least one. -/
theorem Carries.heavy (carries : table.Carries bits cells chains) {front : List (Cell κ ν)}
    (fewer : front ⊆ cells) (notLight : ∀ cell ∈ front, cell.2.visits ≠ 1) :
    ∀ cell ∈ front, 1 < cell.2.visits := by
  intro cell member
  have visited := carries.visited cell (fewer member)
  have different := notLight cell member
  omega

/-- A sweep that passes heavy cells leaves a table that carries the turned cells. -/
theorem Carries.sweep (carries : table.Carries bits cells chains) (someCells : cells ≠ [])
    {front rest : List (Cell κ ν)} {found : Option (Cell κ ν)}
    (split : cells = front ++ (found.toList ++ rest))
    (heavy : ∀ cell ∈ front, 1 < cell.2.visits)
    (stroke : strike (cells.length / 3 + 3) (cells.map Prod.snd) = strokeOf front found rest) :
    ∃ next, table.sweep = .ok (next, (strokeOf front found rest).victim) ∧
      next.Carries bits (rest ++ front.map ageCell) (chainsWithout found chains) ∧
      next.counters = Dial.countStroke (strokeOf front found rest) table.counters := by
  have lays : table.Lays cells chains := ⟨carries.layout, carries.size⟩
  obtain ⟨next, front', found', rest', split', stroke', step, laysAfter, counts, sameBuckets⟩ :=
    lays.sweep someCells
  rw [budget, carries.size, stroke] at stroke'
  obtain ⟨rfl, rfl, rfl⟩ := strokeOf_injective (split.symm.trans split') stroke'
  have carriesAfter : next.Carries bits (rest ++ front.map ageCell)
      (chainsWithout found chains) :=
    { layout := laysAfter.layout
      power := sameBuckets.trans carries.power
      size := laysAfter.size
      visited := by
        refine List.forall_mem_append.2 ⟨fun cell member => ?_, ?_⟩
        · exact carries.visited cell (by simp [split, member])
        · exact List.forall_mem_map.2 fun cell member => Nat.le_sub_one_of_lt (heavy cell member) }
  exact ⟨next, step, carriesAfter, counts⟩

theorem Carries.sweepsByRule [EquivBEq κ] (carries : table.Carries bits cells chains) :
    table.SweepsByRule bits cells chains := by
  refine
    { rests := ?rests
      evicts := ?evicts
      passes := ?passes }
  case rests =>
      rintro rfl
      exact Lays.sweep_nil ⟨carries.layout, carries.size⟩
  case evicts =>
      rintro before index entry after rfl reached single notLight
      have heavy := carries.heavy (List.subset_append_left _ _) notLight
      obtain ⟨next, step, carriesAfter, counts⟩ :=
        carries.sweep (by simp) rfl heavy (strike_cells_of_light heavy single.le reached)
      refine ⟨next, step, carriesAfter.represents, ?_, ?_⟩
      · rw [carriesAfter.size, carries.size]
        simp only [List.length_append, List.length_map, List.length_cons]
        omega
      · rw [counts]
        simp [Dial.countStroke, strokeOf, Stroke.reached, Stroke.isShort]
  case passes =>
      rintro budget someCells rfl notLight
      have heavy := carries.heavy (List.take_subset _ _) notLight
      obtain ⟨next, step, carriesAfter, counts⟩ :=
        carries.sweep someCells (List.take_append_drop _ cells).symm heavy
          (strike_cells_of_heavy heavy)
      refine ⟨next, step, carriesAfter.represents, ?_, ?_⟩
      · rw [carriesAfter.size, carries.size]
        simp only [List.length_append, List.length_map, List.length_take, List.length_drop]
        omega
      · rw [counts]
        simp [Dial.countStroke, strokeOf, Stroke.reached, Stroke.isShort]

end Carries

/-- After any history, a sweep of a table follows the rule, cell by cell. -/
theorem sweeps_by_rule [EquivBEq κ] {bits : Nat} (fits : bits < 32) (past : List (Request κ ν)) :
    ∃ (fresh table : Table κ ν) (replies : List (Reply κ ν)) (cells : List (Cell κ ν))
      (chains : Nat → List Nat),
      ofBuckets (2 ^ bits) = .ok fresh ∧
      serveAll Table.serve fresh past = .ok (table, replies) ∧
      table.Represents bits cells chains ∧ table.SweepsByRule bits cells chains := by
  obtain ⟨fresh, table, replies, cells, chains, built, run, carries⟩ := exists_carries fits past
  exact ⟨fresh, table, replies, cells, chains, built, run, carries.represents,
    carries.sweepsByRule⟩

/-- Four keys on two buckets: the hand has passed two of them, taken out the third and stands
before the last. -/
theorem sweeps_by_rule_four_keys :
    2 < 32 ∧ ∃ (fresh table : Table Nat Nat) (cells : List (Cell Nat Nat))
      (chains : Nat → List Nat),
      ofBuckets (2 ^ 2) = .ok fresh ∧
      serveAll Table.serve fresh
        [.put 0 1 10, .put 4 2 20, .get 0 1, .get 4 2, .put 1 3 30, .put 0 4 40, .sweep] =
          .ok (table, [.value none, .value none, .value (some 10), .value (some 20), .value none,
            .value none, .victim (some ⟨1, 3, 30, 0⟩)]) ∧
      table.Represents 2 cells chains ∧ table.SweepsByRule 2 cells chains := by
  obtain ⟨fresh, table, replies, cells, chains, built, run, represents, byRule⟩ :=
    sweeps_by_rule (κ := Nat) (ν := Nat) (show 2 < 32 by decide)
      [.put 0 1 10, .put 4 2 20, .get 0 1, .get 4 2, .put 1 3 30, .put 0 4 40, .sweep]
  obtain ⟨final, dialRun, _⟩ := (shows_of_ofBuckets built).run
    [.put 0 1 10, .put 4 2 20, .get 0 1, .get 4 2, .put 1 3 30, .put 0 4 40, .sweep]
  rw [run] at dialRun
  cases dialRun
  exact ⟨by decide, fresh, table, cells, chains, built, run, represents, byRule⟩

end Table

end BoundedCache.Clock
