import BoundedCache.Proofs.Clock.Refinement

/-!
# Sweeps turn the dial

A sweep walks the ring backwards from the hand, which is the order in which the cells are listed.
Where it stops decides how the hand is moved: it stays after a lap, is parked before an entry that
was not reached any more, or takes the place of a victim. All three leave a table that shows the
turned dial.
-/

namespace BoundedCache.Clock

variable {κ ν : Type} [BEq κ]

/-! ## Following the ring -/

/-- The node before an entry on the ring is the next one that the hand meets. -/
theorem Layout.prev_eq {buckets index : Nat} {nodes : Slab (Node κ ν)}
    {before after : List (Cell κ ν)} {chains : Nat → List Nat} {entry : Entry κ ν}
    {node : Node κ ν} (layout : Layout buckets nodes (before ++ (index, entry) :: after) chains)
    (holds : nodes.get? index = some node) :
    node.ring.prev = (after.map Prod.fst).headD buckets := by
  have ring := layout.ring
  rw [List.map_append, List.map_cons, List.reverse_append, List.reverse_cons,
    List.append_assoc, List.singleton_append] at ring
  have prev : node.ring.prev = _ := ring.stepTo.prev_eq holds
  rw [prev, List.getLastD_eq_getLast?, List.getLast?_reverse, List.headD_eq_head?_getD]

/-- A cell whose entry lost a visit. -/
def ageCell (cell : Cell κ ν) : Cell κ ν :=
  (cell.1, cell.2.age)

omit [BEq κ] in
theorem map_entry_ageCell (cells : List (Cell κ ν)) :
    (cells.map ageCell).map Prod.snd = (cells.map Prod.snd).map Entry.age := by
  simp only [List.map_map]
  rfl

/-- How a sweep ends that finds this victim and leaves these cells ahead. -/
def sweepEnd (found : Option (Cell κ ν)) (ahead : List (Cell κ ν)) : SweepEnd :=
  match found, ahead with
  | some (index, _), _ => .victim index
  | none, [] => .lapped
  | none, (index, _) :: _ => .exhausted index

/-- The stroke that passes these cells, finds this one and leaves those ahead. -/
def strokeOf (front : List (Cell κ ν)) (found : Option (Cell κ ν)) (rest : List (Cell κ ν)) :
    Stroke κ ν where
  passed := (front.map ageCell).map Prod.snd
  victim := (found.map ageCell).map Prod.snd
  ahead := rest.map Prod.snd

/-- The walk passes the entries that the stroke passes, each in its slot, and stops where the
stroke ends. -/
theorem sweepFrom_spec {buckets : Nat} {chains : Nat → List Nat} (budget : Nat) :
    ∀ {ahead passed : List (Cell κ ν)} {nodes : Slab (Node κ ν)},
      Layout buckets nodes (passed ++ ahead) chains →
      ∃ swept front found rest,
        ahead = front ++ (found.toList ++ rest) ∧
        strike budget (ahead.map Prod.snd) = strokeOf front found rest ∧
        Table.sweepFrom buckets nodes budget ((ahead.map Prod.fst).headD buckets) =
          .ok (swept, (strokeOf front found rest).reached, sweepEnd found rest) ∧
        Layout buckets swept
          (passed ++ (front.map ageCell ++ ((found.map ageCell).toList ++ rest))) chains := by
  induction budget with
  | zero =>
      intro ahead passed nodes layout
      refine ⟨nodes, [], none, ahead, rfl, rfl, ?_, layout⟩
      cases ahead with
      | nil => simp [Table.sweepFrom, sweepEnd, strokeOf, Stroke.reached]
      | cons cell behind =>
          have above := layout.above (List.mem_append_right _ (List.mem_cons_self))
          have notHand : cell.1 ≠ buckets := by omega
          simp [Table.sweepFrom, sweepEnd, strokeOf, Stroke.reached, notHand]
  | succ budget inductionHypothesis =>
      intro ahead passed nodes layout
      cases ahead with
      | nil =>
          refine ⟨nodes, [], none, [], rfl, rfl, ?_, layout⟩
          simp [Table.sweepFrom, sweepEnd, strokeOf, Stroke.reached]
      | cons cell behind =>
          obtain ⟨index, entry⟩ := cell
          have above := layout.above (List.mem_append_right _ (List.mem_cons_self))
          have notHand : index ≠ buckets := by omega
          obtain ⟨aged, modified, agedLayout, _⟩ := layout.revise Entry.age rfl rfl
          obtain ⟨node, holds, hasEntry⟩ :=
            agedLayout.node_of_mem (List.mem_append_right _ (List.mem_cons_self))
          have fetched := Slab.fetch_eq_ok_iff.2 holds
          have prev := agedLayout.prev_eq holds
          simp only [List.map_cons, List.headD_cons, Table.sweepFrom, if_neg notHand, modified,
            fetched, ok_bind, Node.isSpent, hasEntry, strike]
          by_cases spent : entry.age.visits = 0
          · refine ⟨aged, [], some (index, entry), behind, rfl, ?_, ?_, agedLayout⟩
            · rw [if_pos spent]
              rfl
            · simp [spent, sweepEnd, strokeOf, Stroke.reached]
          · rw [← List.singleton_append, ← List.append_assoc] at agedLayout
            obtain ⟨swept, front, found, rest, split, stroke, walked, sweptLayout⟩ :=
              inductionHypothesis agedLayout
            refine ⟨swept, (index, entry) :: front, found, rest, ?_, ?_, ?_, ?_⟩
            · rw [split, List.cons_append]
            · rw [if_neg spent, stroke]
              rfl
            · rw [← prev] at walked
              simp [spent, walked, strokeOf, Stroke.reached]
              omega
            · simpa [ageCell] using sweptLayout

/-! ## Moving the hand -/

/-- The chains without the cell that a sweep found. -/
def chainsWithout (found : Option (Cell κ ν)) (chains : Nat → List Nat) : Nat → List Nat :=
  match found with
  | none => chains
  | some (index, _) => fun bucket => (chains bucket).erase index

section Endings

variable {table : Table κ ν} {before after : List (Cell κ ν)} {index : Nat} {entry : Entry κ ν}
  {chains : Nat → List Nat}

/-- The hand takes the place of a victim, and the victim leaves the table. -/
theorem Table.Lays.evict (lays : table.Lays (before ++ (index, entry) :: after) chains) :
    ∃ evicted, table.evict index = .ok (evicted, some entry) ∧
      evicted.Lays (after ++ before) (fun bucket => (chains bucket).erase index) ∧
      evicted.counters = { table.counters with core := table.counters.core.countEviction } ∧
      evicted.buckets = table.buckets := by
  obtain ⟨unchained, moved, final, unchainStep, moveStep, ringStep, held, layoutAfter⟩ :=
    lays.layout.evict
  let unlinked : Table κ ν := { table with nodes := final }
  let smaller : Table κ ν :=
    { table with nodes := (final.erase index).1, size := table.size - 1 }
  have vacated := Table.vacate_of_entryAt (unlinked.tally Counters.countEviction) held
  refine ⟨smaller.tally Counters.countEviction, ?_, ⟨layoutAfter, ?_⟩, rfl, rfl⟩
  · rw [Table.evict]
    simp only [unchainStep, moveStep, ringStep, ok_bind, pure_eq_ok, Table.hand]
    rw [vacated]
    rfl
  · simp only [Table.tally, smaller, lays.size, List.length_append, List.length_cons]
    omega

/-- The hand is parked before an entry, with which the next sweep begins. -/
theorem Table.Lays.park (lays : table.Lays (before ++ (index, entry) :: after) chains) :
    ∃ parked, table.park index = .ok parked ∧
      parked.Lays ((index, entry) :: after ++ before) chains ∧
      parked.counters =
        { table.counters with exhausted := table.counters.exhausted + 1 } ∧
      parked.buckets = table.buckets := by
  obtain ⟨moved, moveStep, layoutAfter⟩ := lays.layout.park
  refine ⟨{ table with
    nodes := moved
    counters := { table.counters with exhausted := table.counters.exhausted + 1 } },
    ?_, ⟨layoutAfter, ?_⟩, rfl, rfl⟩
  · rw [Table.park, Table.hand, moveStep, ok_bind]
    rfl
  · simp only [lays.size, List.length_append, List.length_cons]
    omega

/-- What a table does after the walk, depending on how it ended. -/
def Table.conclude (table : Table κ ν) : SweepEnd → Checked (Table κ ν × Option (Entry κ ν))
  | .lapped => return (table, none)
  | .exhausted index => return (← table.park index, none)
  | .victim index => table.evict index

/-- After a walk that passed, found and left these cells, the table is turned past them. -/
theorem Table.Lays.conclude {front rest : List (Cell κ ν)} {found : Option (Cell κ ν)}
    {counters : ClockCounters}
    (lays : table.Lays (front.map ageCell ++ ((found.map ageCell).toList ++ rest)) chains)
    (counts : table.counters = { counters with
      sweeps := counters.sweeps + 1
      scanned := counters.scanned + (strokeOf front found rest).reached }) :
    ∃ next, table.conclude (sweepEnd found rest) =
        .ok (next, (strokeOf front found rest).victim) ∧
      next.Lays (rest ++ front.map ageCell) (chainsWithout found chains) ∧
      next.counters = Dial.countStroke (strokeOf front found rest) counters ∧
      next.buckets = table.buckets := by
  cases found with
  | some cell =>
      obtain ⟨evicted, evictStep, laysAfter, counted, sameBuckets⟩ := lays.evict
      refine ⟨evicted, evictStep, laysAfter, ?_, sameBuckets⟩
      rw [counted, counts]
      rfl
  | none =>
      cases rest with
      | nil =>
          refine ⟨table, rfl, ?_, counts, rfl⟩
          simpa [chainsWithout] using lays
      | cons next behind =>
          obtain ⟨parked, parkStep, laysAfter, counted, sameBuckets⟩ := lays.park
          refine ⟨parked, ?_, laysAfter, ?_, sameBuckets⟩
          · simp only [sweepEnd, Table.conclude, parkStep, ok_bind]
            rfl
          · rw [counted, counts]
            rfl

end Endings

/-! ## Whole sweeps -/

/-- The sweep of a table begins with the entry that its dial has in front. -/
theorem Layout.hand_prev {buckets : Nat} {nodes : Slab (Node κ ν)} {cells : List (Cell κ ν)}
    {chains : Nat → List Nat} {hand : Node κ ν} (layout : Layout buckets nodes cells chains)
    (holds : nodes.get? buckets = some hand) :
    hand.ring.prev = (cells.map Prod.fst).headD buckets := by
  have prev : hand.ring.prev = _ := layout.ring.steps.toLast.prev_eq holds
  rw [prev, List.getLastD_eq_getLast?, List.getLast?_reverse, List.headD_eq_head?_getD]

omit [BEq κ] in
theorem Table.sweep_eq (table : Table κ ν) :
    table.sweep = (do
      let hand ← table.nodes.fetch table.hand
      if hand.ring.prev = table.hand then return (table, none)
      let (nodes, passed, ending) ←
        sweepFrom table.hand table.nodes table.budget hand.ring.prev
      ({ table with nodes }.countSweep passed).conclude ending) :=
  rfl

/-- A sweep of a table without cells does nothing. -/
theorem Table.Lays.sweep_nil {table : Table κ ν} {chains : Nat → List Nat}
    (lays : table.Lays [] chains) : table.sweep = .ok (table, none) := by
  obtain ⟨hand, handHolds⟩ := Option.isSome_iff_exists.1 lays.layout.hand_isSome
  rw [Table.sweep_eq, Table.hand, Slab.fetch_eq_ok_iff.2 handHolds, ok_bind,
    lays.layout.hand_prev handHolds, List.map_nil, List.headD_nil, if_pos rfl]
  rfl

/-- A sweep of a table with cells passes some of them, may find one behind these, and leaves the
others ahead, as a stroke on the entries does. -/
theorem Table.Lays.sweep {table : Table κ ν} {cells : List (Cell κ ν)} {chains : Nat → List Nat}
    (lays : table.Lays cells chains) (someCells : cells ≠ []) :
    ∃ next front found rest,
      cells = front ++ (found.toList ++ rest) ∧
      strike table.budget (cells.map Prod.snd) = strokeOf front found rest ∧
      table.sweep = .ok (next, (strokeOf front found rest).victim) ∧
      next.Lays (rest ++ front.map ageCell) (chainsWithout found chains) ∧
      next.counters = Dial.countStroke (strokeOf front found rest) table.counters ∧
      next.buckets = table.buckets := by
  obtain ⟨hand, handHolds⟩ := Option.isSome_iff_exists.1 lays.layout.hand_isSome
  have notHand : (cells.map Prod.fst).headD table.buckets ≠ table.buckets := by
    cases cells with
    | nil => contradiction
    | cons cell others => exact (lays.layout.above List.mem_cons_self).ne'
  have ahead : Layout table.buckets table.nodes ([] ++ cells) chains := lays.layout
  obtain ⟨swept, front, found, rest, split, stroke, walked, sweptLayout⟩ :=
    sweepFrom_spec table.budget ahead
  let counted := ({ table with nodes := swept } : Table κ ν).countSweep
    (strokeOf front found rest).reached
  have countedLays : counted.Lays (front.map ageCell ++ ((found.map ageCell).toList ++ rest))
      chains := by
    refine ⟨sweptLayout, lays.size.trans ?_⟩
    simp [split, Option.toList_map]
  obtain ⟨next, ends, laysAfter, counts, sameBuckets⟩ := countedLays.conclude rfl
  refine ⟨next, front, found, rest, split, stroke, ?_, laysAfter, counts, sameBuckets⟩
  rw [Table.sweep_eq, Table.hand, Slab.fetch_eq_ok_iff.2 handHolds, ok_bind,
    lays.layout.hand_prev handHolds, if_neg notHand, walked, ok_bind]
  exact ends

/-- One sweep of a table is one stroke of its dial. -/
theorem Table.Shows.sweep {table : Table κ ν} {dial : Dial κ ν} (shows : table.Shows dial) :
    Realizes table.buckets table.sweep dial.sweep := by
  obtain ⟨cells, chains, lays, entries⟩ := shows.lays
  by_cases none : cells = []
  · subst none
    have noEntries : dial.entries = [] := entries.symm
    have still : dial.sweep = (dial, none) := by simp [Dial.sweep, noEntries]
    rw [still]
    exact ⟨table, lays.sweep_nil, shows, rfl⟩
  · obtain ⟨next, front, found, rest, _, stroke, step, laysAfter, counts, sameBuckets⟩ :=
      lays.sweep none
    have someEntries : ¬ dial.entries.isEmpty := by simpa [← entries] using none
    have sameBudget : table.budget = dial.budget := by
      rw [Table.budget, Dial.budget, shows.size]
    rw [Dial.sweep, if_neg someEntries, ← entries, ← sameBudget, stroke]
    refine ⟨next, step, laysAfter.shows ?_ ?_, sameBuckets⟩
    · rw [List.map_append]
      rfl
    · rw [counts, shows.counters]

end BoundedCache.Clock
