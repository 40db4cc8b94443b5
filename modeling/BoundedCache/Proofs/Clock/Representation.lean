import BoundedCache.Key
import BoundedCache.Proofs.Clock.Requests
import Mathlib.Algebra.Ring.Nat

/-!
# How a clock table is represented

Whatever a table has served, its slots are filled by the anchors, the hand and the cells, and the
cells lie on two kinds of rings: each on the ring of the bucket that the low bits of its hash code
select, and all of them on the ring of the hand. Lookups find exactly the cells, and each operation
changes the one cell that it names.
-/

namespace BoundedCache.Clock

variable {κ ν : Type} [BEq κ]

namespace Table

/-! ## The representation -/

/-- The table with `2 ^ bits` buckets is represented by `cells`, in the order in which the hand
meets them, and by the slots on the ring of each bucket. -/
structure Represents (table : Table κ ν) (bits : Nat) (cells : List (Cell κ ν))
    (chains : Nat → List Nat) : Prop where
  /-- The anchors stand in the first slots and the hand behind them. -/
  anchored : ∀ index ≤ 2 ^ bits, ∃ node, table.nodes.get? index = some node ∧ node.entry = none
  hand : table.hand = 2 ^ bits
  live : ∀ index entry, (index, entry) ∈ cells ↔
    ∃ node, table.nodes.get? index = some node ∧ node.entry = some entry
  filled : ∀ index, (table.nodes.get? index).isSome →
    index ≤ 2 ^ bits ∨ ∃ entry, (index, entry) ∈ cells
  chain : ∀ bucket < 2 ^ bits,
    Path (bucketField.Adjacent table.nodes) bucket (chains bucket) bucket
  onlyLive : ∀ bucket < 2 ^ bits, ∀ index ∈ chains bucket, ∃ entry, (index, entry) ∈ cells
  onChain : ∀ index entry, (index, entry) ∈ cells → ∀ bucket < 2 ^ bits,
    (index ∈ chains bucket ↔ entry.hash.toNat &&& (2 ^ bits - 1) = bucket)
  ring : Path (ringField.Adjacent table.nodes) table.hand (cells.map Prod.fst).reverse table.hand
  bucketLinks : ∀ index, (index < 2 ^ bits ∨ ∃ entry, (index, entry) ∈ cells) →
    bucketField.Mutual table.nodes index
  ringLinks : ∀ index, (index = table.hand ∨ ∃ entry, (index, entry) ∈ cells) →
    ringField.Mutual table.nodes index
  size : table.size = cells.length
  occupied : table.nodes.occupied = 2 ^ bits + 1 + cells.length
  distinct : cells.Pairwise fun first second => ¬ first.2.holds second.2.hash second.2.key
  visited : ∀ cell ∈ cells, 1 ≤ cell.2.visits

/-- What makes a table be represented: it is laid out with cells that have visits left. -/
structure Carries (table : Table κ ν) (bits : Nat) (cells : List (Cell κ ν))
    (chains : Nat → List Nat) : Prop where
  layout : Layout table.buckets table.nodes cells chains
  power : table.buckets = 2 ^ bits
  size : table.size = cells.length
  visited : ∀ cell ∈ cells, 1 ≤ cell.2.visits

section Carries

variable {table : Table κ ν} {bits : Nat} {cells : List (Cell κ ν)} {chains : Nat → List Nat}

theorem Carries.occupied (carries : table.Carries bits cells chains) :
    table.nodes.occupied = 2 ^ bits + 1 + cells.length := by
  rw [← carries.power]
  exact carries.layout.occupied

theorem Carries.represents [EquivBEq κ] (carries : table.Carries bits cells chains) :
    table.Represents bits cells chains := by
  have occupied := carries.occupied
  obtain ⟨nodes, buckets, _, _⟩ := table
  obtain ⟨layout, power, size, visited⟩ := carries
  dsimp only at power
  subst power
  refine
    { anchored := fun index isAnchor => ?_
      hand := rfl
      live := fun index entry => ?_
      filled := layout.stored
      chain := layout.chain
      onlyLive := fun bucket inBounds index member => ?_
      onChain := fun index entry member bucket inBounds => ?_
      ring := layout.ring
      bucketLinks := ?_
      ringLinks := fun index isNode => ?_
      size := size
      occupied := occupied
      distinct := ?_
      visited := visited }
  · obtain ⟨node, held⟩ := Option.isSome_iff_exists.1 (layout.anchor_isSome isAnchor)
    have noEntry := layout.anchored index isAnchor
    rw [entryAt, held] at noEntry
    exact ⟨node, held, noEntry⟩
  · refine ⟨layout.node_of_mem, ?_⟩
    rintro ⟨node, held, hasEntry⟩
    have isEntry : entryAt nodes index = some entry := entryAt_eq_some_iff.2 ⟨node, held, hasEntry⟩
    rcases layout.stored index (Option.isSome_iff_exists.2 ⟨node, held⟩) with
      isAnchor | ⟨other, member⟩
    · rw [layout.anchored index isAnchor] at isEntry
      contradiction
    · rw [layout.held _ member] at isEntry
      exact Option.some.inj isEntry ▸ member
  · obtain ⟨entry, inCells, _⟩ := (layout.chained bucket inBounds index).1 member
    exact ⟨entry, inCells⟩
  · rw [Nat.and_two_pow_sub_one_eq_mod]
    exact ⟨layout.bucket_eq_of_mem_chain inBounds member,
      fun onBucket => (layout.chained bucket inBounds index).2 ⟨entry, member, onBucket⟩⟩
  · rintro index (isBucket | ⟨entry, member⟩)
    · exact LinkField.mutual_of_ring (layout.chain index isBucket) index List.mem_cons_self
    · exact LinkField.mutual_of_ring (layout.chain _ (layout.bucket_lt entry.hash)) index
        (List.mem_cons_of_mem _ (layout.mem_chain member))
  · refine LinkField.mutual_of_ring layout.ring index (List.mem_cons.2 (isNode.imp_right ?_))
    rintro ⟨entry, member⟩
    exact List.mem_reverse.2 (List.mem_map_of_mem member)
  · refine List.Pairwise.imp_of_mem ?_ layout.slots_nodup.of_map
    intro first second firstMember secondMember different holds
    exact different (layout.distinct first firstMember second secondMember holds)

/-- A cell is replaced in its place by one that still has visits. -/
theorem Carries.visited_replace {before after : List (Cell κ ν)} {index : Nat}
    {entry changed : Entry κ ν}
    (carries : table.Carries bits (before ++ (index, entry) :: after) chains)
    (visited : 1 ≤ changed.visits) :
    ∀ cell ∈ before ++ (index, changed) :: after, 1 ≤ cell.2.visits := by
  intro cell member
  rcases Layout.mem_middle.1 member with rfl | inRest
  · exact visited
  · exact carries.visited cell (Layout.mem_middle.2 (.inr inRest))

end Carries

/-! ## What the operations change -/

/-- No cell holds the key under the hash code. -/
def Absent (cells : List (Cell κ ν)) (hash : UInt32) (key : κ) : Prop :=
  ∀ cell ∈ cells, ¬ cell.2.holds hash key

/-- Lookups find exactly the cells. Visits and new values change one cell and no link, a new cell
comes last, and a removal takes out one cell. -/
structure Operates (table : Table κ ν) (bits : Nat) (cells : List (Cell κ ν))
    (chains : Nat → List Nat) : Prop where
  finds : ∀ hash key, ∃ found, table.find hash key = .ok found ∧
    ∀ index, found = some index ↔ ∃ entry, (index, entry) ∈ cells ∧ entry.holds hash key
  visits : ∀ before index entry after, cells = before ++ (index, entry) :: after →
    ∀ hash key, entry.holds hash key → ∃ next,
      table.get hash key = .ok (next, some entry.value) ∧
      next.Represents bits (before ++ (index, entry.visit) :: after) chains ∧
      Slab.Agree (fun node => (node.bucket, node.ring)) table.nodes next.nodes
  overwrites : ∀ before index entry after, cells = before ++ (index, entry) :: after →
    ∀ hash key value, entry.holds hash key → ∃ next,
      table.put hash key value = .ok (next, some entry.value) ∧
      next.Represents bits (before ++ (index, { entry.visit with value }) :: after) chains ∧
      Slab.Agree (fun node => (node.bucket, node.ring)) table.nodes next.nodes
  inserts : ∀ hash key value, Absent cells hash key → ∃ next slot,
    table.put hash key value = .ok (next, none) ∧
    next.Represents bits (cells ++ [(slot, ⟨hash, key, value, 1⟩)])
      (Function.update chains (table.bucketOf hash) (slot :: chains (table.bucketOf hash)))
  removes : ∀ before index entry after, cells = before ++ (index, entry) :: after →
    ∀ hash key, entry.holds hash key → ∃ next,
      table.remove hash key = .ok (next, some entry.value) ∧
      next.Represents bits (before ++ after) fun bucket => (chains bucket).erase index
  misses : ∀ hash key, Absent cells hash key →
    (∃ next, table.get hash key = .ok (next, none) ∧ next.nodes = table.nodes ∧
      next.size = table.size) ∧ table.remove hash key = .ok (table, none)

section Operations

variable [EquivBEq κ] {table : Table κ ν} {bits : Nat} {cells before after : List (Cell κ ν)}
  {chains : Nat → List Nat} {index : Nat} {entry : Entry κ ν} {hash : UInt32} {key : κ}

theorem Carries.find_spec (carries : table.Carries bits cells chains) (hash : UInt32) (key : κ) :
    ∃ found, table.find hash key = .ok found ∧
      ∀ index, found = some index ↔ ∃ entry, (index, entry) ∈ cells ∧ entry.holds hash key := by
  refine ⟨_, carries.layout.find_eq hash key, fun index => ⟨fun found => ?_, ?_⟩⟩
  · obtain ⟨cell, isFound, rfl⟩ := Option.map_eq_some_iff.1 found
    have holds := List.find?_some isFound
    exact ⟨cell.2, List.mem_of_find?_eq_some isFound, holds⟩
  · rintro ⟨entry, member, holds⟩
    obtain ⟨before, after, rfl⟩ := List.append_of_mem member
    have found := carries.layout.find_middle holds
    rw [carries.layout.find_eq] at found
    exact Except.ok.inj found

theorem Carries.find_absent (carries : table.Carries bits cells chains)
    (absent : Absent cells hash key) : table.find hash key = .ok none := by
  rw [carries.layout.find_eq, List.find?_eq_none.2 absent]
  rfl

theorem Carries.operates (carries : table.Carries bits cells chains) :
    table.Operates bits cells chains := by
  refine
    { finds := carries.find_spec
      visits := ?_
      overwrites := ?_
      inserts := fun hash key value absent => ?_
      removes := ?_
      misses := fun hash key absent => ?_ }
  · rintro before index entry after rfl hash key holds
    obtain ⟨nodes, step, layout, sameLinks⟩ := carries.layout.get_spec holds
    have next : (({ table with nodes } : Table κ ν).tally Counters.countHit).Carries bits
        (before ++ (index, entry.visit) :: after) chains :=
      { layout := layout
        power := carries.power
        size := carries.size.trans (by simp)
        visited := carries.visited_replace entry.visit_inRange.1 }
    exact ⟨_, step, next.represents, sameLinks⟩
  · rintro before index entry after rfl hash key value holds
    obtain ⟨nodes, step, layout, sameLinks⟩ := carries.layout.put_spec holds value
    have next : (({ table with nodes } : Table κ ν).tally Counters.countUpdate).Carries bits
        (before ++ (index, { entry.visit with value }) :: after) chains :=
      { layout := layout
        power := carries.power
        size := carries.size.trans (by simp)
        visited := carries.visited_replace entry.visit_inRange.1 }
    exact ⟨_, step, next.represents, sameLinks⟩
  · obtain ⟨nodes, slot, step, layout⟩ := carries.layout.add_spec absent value
    have next : (({ table with nodes, size := table.size + 1 } : Table κ ν).tally
        Counters.countInsertion).Carries bits (cells ++ [(slot, ⟨hash, key, value, 1⟩)])
        (Function.update chains (table.bucketOf hash)
          (slot :: chains (table.bucketOf hash))) :=
      { layout := layout
        power := carries.power
        size := by simp [tally, carries.size]
        visited := List.forall_mem_append.2 ⟨carries.visited, by simp⟩ }
    refine ⟨_, slot, ?_, next.represents⟩
    simp only [Table.put, carries.find_absent absent, step, ok_bind, pure_eq_ok]
  · rintro before index entry after rfl hash key holds
    obtain ⟨nodes, step, layout⟩ := carries.layout.remove_spec holds
    have next : (({ table with nodes, size := table.size - 1 } : Table κ ν).tally
        Counters.countRemoval).Carries bits (before ++ after)
        (fun bucket => (chains bucket).erase index) :=
      { layout := layout
        power := carries.power
        size := by simp [tally, carries.size]
        visited := fun cell member => carries.visited cell (Layout.mem_middle.2 (.inr member)) }
    exact ⟨_, step, next.represents⟩
  · refine ⟨⟨table.tally Counters.countMiss, ?_, rfl, rfl⟩, ?_⟩
    · simp only [Table.get, carries.find_absent absent, ok_bind, pure_eq_ok]
    · simp only [Table.remove, carries.find_absent absent, ok_bind, pure_eq_ok]

end Operations

/-! ## Histories -/

/-- The table shows a valid dial and has this many buckets. -/
def Sound (buckets : Nat) (table : Table κ ν) : Prop :=
  ∃ dial : Dial κ ν, table.Shows dial ∧ Valid dial.entries ∧ table.buckets = buckets

theorem Sound.serve [PartialEquivBEq κ] {buckets : Nat} {table : Table κ ν}
    (sound : table.Sound buckets) (request : Request κ ν) :
    ∃ next reply, table.serve request = .ok (next, reply) ∧ next.Sound buckets := by
  obtain ⟨dial, shows, valid, rfl⟩ := sound
  obtain ⟨next, step, showsNext, sameBuckets⟩ := shows.serve request
  exact ⟨next, _, step, _, showsNext, Dial.valid_serve valid request, sameBuckets⟩

theorem Sound.carries {bits : Nat} {table : Table κ ν} (sound : table.Sound (2 ^ bits)) :
    ∃ cells chains, table.Carries bits cells chains := by
  obtain ⟨dial, shows, valid, power⟩ := sound
  obtain ⟨cells, chains, layout, entries⟩ := shows.laidOut
  refine ⟨cells, chains, layout, power, ?_, fun cell member => ?_⟩
  · rw [shows.size, ← entries, List.length_map]
  · exact valid.visited cell.2 (entries ▸ List.mem_map_of_mem member)

/-- A table with a power of two of buckets serves every history, and carries some cells
afterwards. -/
theorem exists_carries [PartialEquivBEq κ] {bits : Nat} (fits : bits < 32)
    (past : List (Request κ ν)) :
    ∃ (fresh table : Table κ ν) (replies : List (Reply κ ν)) (cells : List (Cell κ ν))
      (chains : Nat → List Nat),
      ofBuckets (2 ^ bits) = .ok fresh ∧
      serveAll Table.serve fresh past = .ok (table, replies) ∧
      table.Carries bits cells chains := by
  have built : ofBuckets (2 ^ bits) = .ok (empty (2 ^ bits) : Table κ ν) := by
    have small : 2 ^ bits < 1 <<< 32 := Nat.pow_lt_pow_right (by decide) fits
    rw [ofBuckets, if_pos (isBucketCount_of_power ⟨bits, rfl⟩ small)]
  have fresh : (empty (2 ^ bits) : Table κ ν).Sound (2 ^ bits) :=
    ⟨Dial.empty, shows_of_ofBuckets built, valid_nil, rfl⟩
  obtain ⟨table, replies, run, sound⟩ :=
    serveAll_keeps (fun request sound => sound.serve request) past fresh
  obtain ⟨cells, chains, carries⟩ := sound.carries
  exact ⟨_, table, replies, cells, chains, built, run, carries⟩

/-- A table with a power of two of buckets serves every history, under any hash codes. Afterwards
it is represented by cells, and each operation on it finds and changes the cells that it names. -/
theorem keeps_both_rings [EquivBEq κ] {bits : Nat} (fits : bits < 32) (past : List (Request κ ν)) :
    ∃ (fresh table : Table κ ν) (replies : List (Reply κ ν)) (cells : List (Cell κ ν))
      (chains : Nat → List Nat),
      ofBuckets (2 ^ bits) = .ok fresh ∧
      serveAll Table.serve fresh past = .ok (table, replies) ∧
      table.Represents bits cells chains ∧ table.Operates bits cells chains := by
  obtain ⟨fresh, table, replies, cells, chains, built, run, carries⟩ := exists_carries fits past
  exact ⟨fresh, table, replies, cells, chains, built, run, carries.represents, carries.operates⟩

/-- Four buckets, one key under three hash codes, of which two select the same bucket. -/
theorem keeps_both_rings_shared_key :
    2 < 32 ∧ ∃ (fresh table : Table Nat Nat) (cells : List (Cell Nat Nat))
      (chains : Nat → List Nat),
      ofBuckets (2 ^ 2) = .ok fresh ∧
      serveAll Table.serve fresh
        [.put 0xffffffff 7 1, .put 3 7 2, .put 0 7 3, .get 3 7, .sweep, .put 0xffffffff 7 4] =
          .ok (table, [.value none, .value none, .value none, .value (some 2),
            .victim (some ⟨0xffffffff, 7, 1, 0⟩), .value none]) ∧
      table.Represents 2 cells chains ∧ table.Operates 2 cells chains := by
  obtain ⟨fresh, table, replies, cells, chains, built, run, represents, operates⟩ :=
    keeps_both_rings (κ := Nat) (ν := Nat) (show 2 < 32 by decide)
      [.put 0xffffffff 7 1, .put 3 7 2, .put 0 7 3, .get 3 7, .sweep, .put 0xffffffff 7 4]
  obtain ⟨final, dialRun, _⟩ := (shows_of_ofBuckets built).run
    [.put 0xffffffff 7 1, .put 3 7 2, .put 0 7 3, .get 3 7, .sweep, .put 0xffffffff 7 4]
  rw [run] at dialRun
  cases dialRun
  exact ⟨by decide, fresh, table, cells, chains, built, run, represents, operates⟩

end Table

end BoundedCache.Clock
