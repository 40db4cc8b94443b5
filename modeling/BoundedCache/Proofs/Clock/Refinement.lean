import BoundedCache.Proofs.Clock.Rewiring

/-!
# Clock tables are dials

A table shows a dial when it is laid out with the entries of the dial. Every operation on such a
table succeeds, answers as the dial does and leaves a table that shows the dial after the
operation. So whatever holds of dials holds of clock tables.
-/

namespace BoundedCache.Clock

variable {κ ν : Type}

theorem Table.vacate_of_entryAt {index : Nat} {entry : Entry κ ν} (table : Table κ ν)
    (held : entryAt table.nodes index = some entry) :
    table.vacate index =
      ({ table with nodes := (table.nodes.erase index).1, size := table.size - 1 },
        some entry) := by
  have removed : (table.nodes.erase index).2.bind Node.entry = some entry := by
    rw [Slab.erase_snd]
    exact held
  simp only [vacate, removed]

variable [BEq κ]

/-! ## Operations on cells -/

section Cells

variable [PartialEquivBEq κ] {table : Table κ ν} {cells before after : List (Cell κ ν)}
  {index : Nat} {entry : Entry κ ν} {chains : Nat → List Nat} {hash : UInt32} {key : κ}

theorem Layout.find_middle
    (layout : Layout table.buckets table.nodes (before ++ (index, entry) :: after) chains)
    (holds : entry.holds hash key) : table.find hash key = .ok (some index) := by
  have member : (index, entry) ∈ before ++ (index, entry) :: after := by simp
  rw [layout.find_eq]
  cases found : (before ++ (index, entry) :: after).find? fun cell => cell.2.holds hash key with
  | none => exact absurd holds (List.find?_eq_none.1 found _ member)
  | some cell =>
      have cellHolds := List.find?_some found
      rw [layout.cell_unique (List.mem_of_find?_eq_some found) member cellHolds holds]
      rfl

/-- A lookup visits the entry that it finds. -/
theorem Layout.get_spec
    (layout : Layout table.buckets table.nodes (before ++ (index, entry) :: after) chains)
    (holds : entry.holds hash key) :
    ∃ nodes, table.get hash key =
        .ok (({ table with nodes } : Table κ ν).tally Counters.countHit, some entry.value) ∧
      Layout table.buckets nodes (before ++ (index, entry.visit) :: after) chains ∧
      Slab.Agree (fun node => (node.bucket, node.ring)) table.nodes nodes := by
  obtain ⟨node, held, hasEntry⟩ := layout.node_of_mem (List.mem_append_right before
    List.mem_cons_self)
  obtain ⟨nodes, modified, layoutAfter, sameLinks⟩ := layout.revise Entry.visit rfl rfl
  refine ⟨nodes, ?_, layoutAfter, sameLinks⟩
  simp [Table.get, layout.find_middle holds, Slab.fetch_eq_ok_iff.2 held, modified, hasEntry]

/-- Storing under a key that is held visits its entry and replaces the value. -/
theorem Layout.put_spec
    (layout : Layout table.buckets table.nodes (before ++ (index, entry) :: after) chains)
    (holds : entry.holds hash key) (value : ν) :
    ∃ nodes, table.put hash key value =
        .ok (({ table with nodes } : Table κ ν).tally Counters.countUpdate, some entry.value) ∧
      Layout table.buckets nodes (before ++ (index, { entry.visit with value }) :: after)
        chains ∧
      Slab.Agree (fun node => (node.bucket, node.ring)) table.nodes nodes := by
  obtain ⟨node, held, hasEntry⟩ := layout.node_of_mem (List.mem_append_right before
    List.mem_cons_self)
  obtain ⟨nodes, modified, layoutAfter, sameLinks⟩ :=
    layout.revise (fun entry => { entry.visit with value }) rfl rfl
  refine ⟨nodes, ?_, layoutAfter, sameLinks⟩
  simp [Table.put, layout.find_middle holds, Slab.fetch_eq_ok_iff.2 held, modified, hasEntry]

/-- An entry for a new key comes last, in front of its bucket. -/
theorem Layout.add_spec (layout : Layout table.buckets table.nodes cells chains)
    (fresh : ∀ cell ∈ cells, ¬ cell.2.holds hash key) (value : ν) :
    ∃ nodes slot,
      table.add hash key value =
        .ok (({ table with nodes, size := table.size + 1 } : Table κ ν).tally
          Counters.countInsertion) ∧
      Layout table.buckets nodes (cells ++ [(slot, ⟨hash, key, value, 1⟩)])
        (Function.update chains (table.bucketOf hash) (slot :: chains (table.bucketOf hash))) := by
  obtain ⟨chainedNodes, ringed, chainStep, ringStep, layoutAfter⟩ :=
    layout.add ⟨hash, key, value, 1⟩ fresh (.alone 0)
  refine ⟨ringed, _, ?_, layoutAfter⟩
  rw [Table.add]
  simp only [Table.bucketOf, Table.hand, chainStep, ringStep, ok_bind, pure_eq_ok]

/-- A removal takes the entry off both its rings. -/
theorem Layout.remove_spec
    (layout : Layout table.buckets table.nodes (before ++ (index, entry) :: after) chains)
    (holds : entry.holds hash key) :
    ∃ nodes, table.remove hash key =
        .ok (({ table with nodes, size := table.size - 1 } : Table κ ν).tally
          Counters.countRemoval, some entry.value) ∧
      Layout table.buckets nodes (before ++ after) (fun bucket => (chains bucket).erase index) := by
  obtain ⟨unchained, final, unchainStep, ringStep, held, layoutAfter⟩ := layout.remove
  have emptied := Table.vacate_of_entryAt ({ table with nodes := final } : Table κ ν) held
  refine ⟨_, ?_, layoutAfter⟩
  simp [Table.remove, layout.find_middle holds, unchainStep, ringStep, emptied]

end Cells

/-! ## Tables that show a dial -/

/-- The table is laid out with the entries of the dial and has its counters. -/
structure Table.Shows (table : Table κ ν) (dial : Dial κ ν) : Prop where
  laidOut : ∃ cells chains, Layout table.buckets table.nodes cells chains ∧
    cells.map Prod.snd = dial.entries
  size : table.size = dial.entries.length
  counters : table.counters = dial.counters

/-- The table is laid out with these cells and chains, and knows how many cells there are. -/
structure Table.Lays (table : Table κ ν) (cells : List (Cell κ ν)) (chains : Nat → List Nat) :
    Prop where
  layout : Layout table.buckets table.nodes cells chains
  size : table.size = cells.length

theorem Table.Lays.shows {table : Table κ ν} {cells : List (Cell κ ν)} {chains : Nat → List Nat}
    {dial : Dial κ ν} (lays : table.Lays cells chains)
    (entries : cells.map Prod.snd = dial.entries) (counters : table.counters = dial.counters) :
    table.Shows dial where
  laidOut := ⟨cells, chains, lays.layout, entries⟩
  size := by rw [lays.size, ← entries, List.length_map]
  counters := counters

theorem Table.Shows.lays {table : Table κ ν} {dial : Dial κ ν} (shows : table.Shows dial) :
    ∃ cells chains, table.Lays cells chains ∧ cells.map Prod.snd = dial.entries := by
  obtain ⟨cells, chains, layout, entries⟩ := shows.laidOut
  refine ⟨cells, chains, ⟨layout, ?_⟩, entries⟩
  rw [shows.size, ← entries, List.length_map]

/-- A step on a table with this many buckets does what the dial does. -/
def Realizes {β : Type} (buckets : Nat) (step : Checked (Table κ ν × β))
    (outcome : Dial κ ν × β) : Prop :=
  ∃ table, step = .ok (table, outcome.2) ∧ table.Shows outcome.1 ∧ table.buckets = buckets

theorem Table.shows_empty {buckets : Nat} (positive : 0 < buckets) :
    (Table.empty buckets : Table κ ν).Shows Dial.empty where
  laidOut := ⟨[], fun _ => [], Layout.empty positive, rfl⟩
  size := rfl
  counters := rfl

/-- A power of two that a word can hold can be a number of buckets. -/
theorem Table.isBucketCount_of_power {buckets : Nat} (power : buckets.isPowerOfTwo)
    (fits : buckets < 1 <<< 32) : Table.isBucketCount buckets := by
  have logarithm : 1 <<< buckets.log2 = buckets := by
    obtain ⟨bits, rfl⟩ := power
    rw [Nat.log2_two_pow, Nat.one_shiftLeft]
  rw [Table.isBucketCount, logarithm, BEq.rfl, decide_eq_true fits]
  rfl

theorem Table.shows_of_ofBuckets {buckets : Nat} {fresh : Table κ ν}
    (built : Table.ofBuckets buckets = .ok fresh) : fresh.Shows Dial.empty := by
  rw [Table.ofBuckets] at built
  split at built
  · rename_i isCount
    cases built
    refine Table.shows_empty (Nat.pos_of_ne_zero ?_)
    intro zero
    simp [Table.isBucketCount, zero] at isCount
  · contradiction

theorem Table.Shows.clear {table : Table κ ν} {dial : Dial κ ν} (shows : table.Shows dial) :
    table.clear.Shows dial.clear := by
  obtain ⟨cells, chains, layout, _⟩ := shows.laidOut
  exact ⟨⟨[], fun _ => [], Layout.empty layout.positive, rfl⟩, rfl, shows.counters⟩

/-! ## Lookups -/

section Lookups

variable {table : Table κ ν} {dial : Dial κ ν}

theorem Table.Shows.tally (shows : table.Shows dial) (event : Counters → Counters) :
    (table.tally event).Shows (dial.tally event) where
  laidOut := shows.laidOut
  size := shows.size
  counters := by rw [Table.tally, Dial.tally, shows.counters]

/-- Changing the entry for a key in its slot changes it on the dial. -/
theorem Table.Shows.revise_entry {before after : List (Cell κ ν)} {index : Nat}
    {entry : Entry κ ν} {chains : Nat → List Nat} {hash : UInt32} {key : κ}
    {nodes : Slab (Node κ ν)} (shows : table.Shows dial) (change : Entry κ ν → Entry κ ν)
    (layout : Layout table.buckets nodes (before ++ (index, change entry) :: after) chains)
    (entries : dial.entries = before.map Prod.snd ++ entry :: after.map Prod.snd)
    (holds : entry.holds hash key)
    (others : ∀ other ∈ before.map Prod.snd ++ after.map Prod.snd, ¬ other.holds hash key) :
    ({ table with nodes } : Table κ ν).Shows
      { dial with entries := reviseEntry change hash key dial.entries } := by
  refine ⟨⟨_, chains, layout, ?_⟩, ?_, shows.counters⟩
  · rw [entries, reviseEntry_middle holds others, List.map_append, List.map_cons]
  · rw [shows.size, reviseEntry, List.length_map]

variable [PartialEquivBEq κ]

/-- A table finds a slot where the dial finds an entry, and the cells fall apart there. -/
theorem Table.Shows.find_cases (shows : table.Shows dial) (hash : UInt32) (key : κ) :
    (table.find hash key = .ok none ∧ dial.find? hash key = none) ∨
    ∃ before index entry after chains,
      table.find hash key = .ok (some index) ∧ dial.find? hash key = some entry ∧
      Layout table.buckets table.nodes (before ++ (index, entry) :: after) chains ∧
      dial.entries = before.map Prod.snd ++ entry :: after.map Prod.snd ∧
      entry.holds hash key ∧
      ∀ other ∈ before.map Prod.snd ++ after.map Prod.snd, ¬ other.holds hash key := by
  obtain ⟨cells, chains, layout, entries⟩ := shows.laidOut
  have dialFind : dial.find? hash key =
      (cells.find? fun cell => cell.2.holds hash key).map Prod.snd := by
    rw [Dial.find?, ← entries, List.find?_map]
    rfl
  rw [layout.find_eq hash key, dialFind]
  cases found : cells.find? fun cell => cell.2.holds hash key with
  | none => exact .inl ⟨rfl, rfl⟩
  | some cell =>
      obtain ⟨index, entry⟩ := cell
      obtain ⟨holds, before, after, split, _⟩ := List.find?_eq_some_iff_append.1 found
      subst split
      refine .inr ⟨before, index, entry, after, chains, rfl, rfl, layout, ?_, holds, ?_⟩
      · rw [← entries, List.map_append, List.map_cons]
      · intro other member otherHolds
        rw [← List.map_append] at member
        obtain ⟨cell, inRest, rfl⟩ := List.mem_map.1 member
        obtain ⟨inCells, elsewhere⟩ := (layout.mem_without cell).1 inRest
        have same := layout.cell_unique inCells (by simp) otherHolds holds
        exact elsewhere (congrArg Prod.fst same)

theorem Table.Shows.get (shows : table.Shows dial) (hash : UInt32) (key : κ) :
    Realizes table.buckets (table.get hash key) (dial.get hash key) := by
  rcases shows.find_cases hash key with ⟨tableFind, dialFind⟩ |
    ⟨before, index, entry, after, chains, tableFind, dialFind, layout, entries, holds, others⟩
  · rw [Table.get, Dial.get, tableFind, dialFind]
    exact ⟨_, rfl, shows.tally _, rfl⟩
  · obtain ⟨nodes, step, layoutAfter, _⟩ := layout.get_spec holds
    rw [step, Dial.get, dialFind]
    have showsAfter := shows.revise_entry Entry.visit layoutAfter entries holds others
    exact ⟨_, rfl, showsAfter.tally Counters.countHit, rfl⟩

theorem Table.Shows.find_isSome (shows : table.Shows dial) (hash : UInt32) (key : κ) :
    ∃ found, table.find hash key = .ok found ∧
      found.isSome = (dial.find? hash key).isSome := by
  rcases shows.find_cases hash key with ⟨tableFind, dialFind⟩ |
    ⟨_, index, entry, _, _, tableFind, dialFind, _⟩
  · exact ⟨none, tableFind, by simp [dialFind]⟩
  · exact ⟨some index, tableFind, by simp [dialFind]⟩

/-! ## Storing and removing -/

theorem Table.Shows.add (shows : table.Shows dial) {hash : UInt32} {key : κ} (value : ν)
    (absent : dial.find? hash key = none) :
    ∃ added, table.add hash key value = .ok added ∧ added.buckets = table.buckets ∧
      added.Shows
        (({ dial with entries := dial.entries ++ [⟨hash, key, value, 1⟩] } : Dial κ ν).tally
          Counters.countInsertion) := by
  obtain ⟨cells, chains, layout, entries⟩ := shows.laidOut
  have fresh : ∀ cell ∈ cells, ¬ cell.2.holds hash key := by
    intro cell member
    refine List.find?_eq_none.1 absent cell.2 ?_
    rw [← entries]
    exact List.mem_map_of_mem member
  obtain ⟨nodes, slot, step, layoutAfter⟩ := layout.add_spec fresh value
  refine ⟨_, step, rfl, ⟨_, _, layoutAfter, ?_⟩, ?_, ?_⟩
  · simp [Dial.tally, entries]
  · simp [Table.tally, Dial.tally, shows.size]
  · simp [Table.tally, Dial.tally, shows.counters]

theorem Table.Shows.put (shows : table.Shows dial) (hash : UInt32) (key : κ) (value : ν) :
    Realizes table.buckets (table.put hash key value) (dial.put hash key value) := by
  rcases shows.find_cases hash key with ⟨tableFind, dialFind⟩ |
    ⟨before, index, entry, after, chains, tableFind, dialFind, layout, entries, holds, others⟩
  · obtain ⟨added, addStep, sameBuckets, showsAfter⟩ := shows.add value dialFind
    rw [Table.put, Dial.put, tableFind, dialFind]
    refine ⟨added, ?_, showsAfter, sameBuckets⟩
    simp [addStep]
  · obtain ⟨nodes, step, layoutAfter, _⟩ := layout.put_spec holds value
    rw [step, Dial.put, dialFind]
    have showsAfter := shows.revise_entry (fun entry => { entry.visit with value }) layoutAfter
      entries holds others
    exact ⟨_, rfl, showsAfter.tally Counters.countUpdate, rfl⟩

theorem Table.Shows.remove (shows : table.Shows dial) (hash : UInt32) (key : κ) :
    Realizes table.buckets (table.remove hash key) (dial.remove hash key) := by
  rcases shows.find_cases hash key with ⟨tableFind, dialFind⟩ |
    ⟨before, index, entry, after, chains, tableFind, dialFind, layout, entries, holds, others⟩
  · rw [Table.remove, Dial.remove, tableFind, dialFind]
    exact ⟨table, rfl, shows, rfl⟩
  · obtain ⟨nodes, step, layoutAfter⟩ := layout.remove_spec holds
    rw [step, Dial.remove, dialFind]
    refine ⟨_, rfl, ⟨⟨_, _, layoutAfter, ?_⟩, ?_, ?_⟩, rfl⟩
    · simp [Dial.tally, entries, dropEntry_middle holds others]
    · simp [Table.tally, Dial.tally, shows.size, entries, dropEntry_middle holds others]
    · simp [Table.tally, Dial.tally, shows.counters]

end Lookups

end BoundedCache.Clock
