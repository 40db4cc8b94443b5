import BoundedCache.Proofs.Round.LastUse

/-!
# How a round cache is represented

Whatever a round cache has served, its slots are filled by linked nodes only, each on the list from
head to tail and on the chain of the bucket to which its hash code leads. Lookups find the one node
for a key.
-/

namespace BoundedCache.RoundCache

open Round

variable {κ ν : Type} [BEq κ] [Hashable κ]

/-! ## The representation -/

/-- The cache is represented by the slots on its list, from head to tail, and by those on the chain
of each bucket. -/
structure Represents (cache : RoundCache κ ν) (order : List Nat) (chains : Nat → List Nat) :
    Prop where
  chain : ∀ bucket first, cache.buckets[bucket]? = some first →
    ∃ last, bucketField.Chain cache.list.nodes first last (chains bucket)
  onChain : ∀ bucket < cache.buckets.size, ∀ index ∈ chains bucket, ∀ node,
    cache.list.nodes.get? index = some node → node.item.hash.toNat % cache.buckets.size = bucket
  /-- Nothing is before a node exactly if its bucket begins with it. -/
  first : ∀ bucket < cache.buckets.size, ∀ index ∈ chains bucket, ∀ node,
    cache.list.nodes.get? index = some node →
      (node.item.bucket.prev = none ↔ cache.buckets[bucket]? = some (some index))
  list : orderField.Chain cache.list.nodes cache.list.head cache.list.tail order
  linked : ∀ index node, cache.list.nodes.get? index = some node → node.linked = true
  /-- The chains together have the nodes of the list, each once. -/
  chained : ((List.range cache.buckets.size).flatMap chains).Perm order
  filled : ∀ index, (cache.list.nodes.get? index).isSome ↔ index ∈ order
  hashed : ∀ index node, cache.list.nodes.get? index = some node →
    node.item.hash = HashCode.shifted node.item.key
  distinct : ∀ first second firstNode secondNode,
    cache.list.nodes.get? first = some firstNode → cache.list.nodes.get? second = some secondNode →
      firstNode.item.key == secondNode.item.key → first = second
  size : cache.size = order.length
  occupied : cache.list.nodes.occupied = order.length

/-- A lookup finds the one node with an equal key, or tells that there is none. -/
def Finds (cache : RoundCache κ ν) : Prop :=
  ∀ key, ∃ found, cache.find (HashCode.shifted key) key = .ok found ∧
    ∀ index, found = some index ↔
      ∃ node, cache.list.nodes.get? index = some node ∧ node.item.key == key

/-! ## Layouts are representations -/

section Layouts

variable {cache : RoundCache κ ν} {cells : List (Cell κ ν)}

omit [BEq κ] [Hashable κ] in
/-- The chains of the buckets, as one function. -/
theorem exists_chains (layout : Layout cache cells) :
    ∃ chains : Nat → List Nat, ∀ bucket first, cache.buckets[bucket]? = some first →
      (∃ last, bucketField.Chain cache.list.nodes first last (chains bucket)) ∧
      ∀ index, index ∈ chains bucket ↔ index ∈ cells.map Prod.fst ∧
        bucketAt cache.buckets.size cache.list.nodes index = some bucket := by
  have housed : ∀ bucket, ∃ chain : List Nat, ∀ first, cache.buckets[bucket]? = some first →
      (∃ last, bucketField.Chain cache.list.nodes first last chain) ∧
      ∀ index, index ∈ chain ↔ index ∈ cells.map Prod.fst ∧
        bucketAt cache.buckets.size cache.list.nodes index = some bucket := by
    intro bucket
    cases isBucket : cache.buckets[bucket]? with
    | none => exact ⟨[], by simp⟩
    | some first =>
        obtain ⟨last, chain, path, members⟩ := layout.housed.house bucket first isBucket
        refine ⟨chain, fun other same => ?_⟩
        cases same
        exact ⟨⟨last, path⟩, members⟩
  choose chains chainsHoused using housed
  exact ⟨chains, chainsHoused⟩

omit [BEq κ] [Hashable κ] in
/-- The chains together have the slots of the cells, each once. -/
theorem chained_perm (layout : Layout cache cells) {chains : Nat → List Nat}
    (nodup : ∀ bucket < cache.buckets.size, (chains bucket).Nodup)
    (members : ∀ bucket < cache.buckets.size, ∀ index, index ∈ chains bucket ↔
      index ∈ cells.map Prod.fst ∧
        bucketAt cache.buckets.size cache.list.nodes index = some bucket) :
    ((List.range cache.buckets.size).flatMap chains).Perm (cells.map Prod.fst) := by
  have apart : (List.range cache.buckets.size).Pairwise (Function.onFun List.Disjoint chains) := by
    refine List.Pairwise.imp_of_mem ?_ List.nodup_range
    intro first second isFirst isSecond different index inFirst inSecond
    have firstBucket := ((members first (List.mem_range.1 isFirst) index).1 inFirst).2
    have secondBucket := ((members second (List.mem_range.1 isSecond) index).1 inSecond).2
    exact different (Option.some.inj (firstBucket.symm.trans secondBucket))
  have distinct : ((List.range cache.buckets.size).flatMap chains).Nodup :=
    List.nodup_flatMap.2 ⟨fun bucket isBucket => nodup bucket (List.mem_range.1 isBucket), apart⟩
  refine (List.perm_ext_iff_of_nodup distinct layout.slots_nodup).2 fun index => ?_
  rw [List.mem_flatMap]
  constructor
  · rintro ⟨bucket, isBucket, onChain⟩
    exact ((members bucket (List.mem_range.1 isBucket) index).1 onChain).1
  · intro isSlot
    obtain ⟨⟨_, record⟩, member, rfl⟩ := List.mem_map.1 isSlot
    obtain ⟨node, holds, _⟩ := layout.node_of_mem member
    have inBounds := layout.housed.bucket_lt node.item.hash
    refine ⟨_, List.mem_range.2 inBounds, (members _ inBounds _).2 ⟨isSlot, ?_⟩⟩
    rw [bucketAt, holds]
    rfl

variable (named : Named (cells.map Prod.snd))
  (distinct : (cells.map Prod.snd).Pairwise fun first second => ¬ first.key == second.key)

omit [BEq κ] [Hashable κ] in
/-- Every stored node is that of a cell. -/
theorem cell_of_node (layout : Layout cache cells) {index : Nat} {node : Node (Entry κ ν)}
    (holds : cache.list.nodes.get? index = some node) : (index, node.record) ∈ cells := by
  obtain ⟨⟨_, record⟩, member, rfl⟩ :=
    List.mem_map.1 (layout.stored index (Option.isSome_iff_exists.2 ⟨node, holds⟩))
  obtain ⟨same, sameHolds, isRecord⟩ := layout.node_of_mem member
  rw [holds] at sameHolds
  cases sameHolds
  exact isRecord ▸ member

include distinct in
omit [Hashable κ] in
theorem cell_unique [PartialEquivBEq κ] {first second : Cell κ ν} (firstMember : first ∈ cells)
    (secondMember : second ∈ cells) (same : first.2.key == second.2.key) : first = second := by
  by_contra different
  have symmetric : Std.Symm fun first second : Cell κ ν => ¬ first.2.key == second.2.key :=
    ⟨fun _ _ apart same => apart (PartialEquivBEq.symm same)⟩
  exact (List.pairwise_map.1 distinct).forall firstMember secondMember different same

include named distinct in
/-- A layout with named records and distinct keys represents the cache. -/
theorem represents_of_layout [PartialEquivBEq κ] (layout : Layout cache cells) :
    ∃ chains, cache.Represents (cells.map Prod.fst) chains := by
  obtain ⟨chains, house⟩ := exists_chains layout
  have headed : ∀ bucket < cache.buckets.size, ∃ first, cache.buckets[bucket]? = some first :=
    fun bucket inBounds => ⟨_, Array.getElem?_eq_getElem inBounds⟩
  have members : ∀ bucket < cache.buckets.size, ∀ index, index ∈ chains bucket ↔
      index ∈ cells.map Prod.fst ∧
        bucketAt cache.buckets.size cache.list.nodes index = some bucket := by
    intro bucket inBounds
    obtain ⟨first, isBucket⟩ := headed bucket inBounds
    exact (house bucket first isBucket).2
  have nodup : ∀ bucket < cache.buckets.size, (chains bucket).Nodup := by
    intro bucket inBounds
    obtain ⟨first, isBucket⟩ := headed bucket inBounds
    obtain ⟨last, chain⟩ := (house bucket first isBucket).1
    exact ChainField.chain_nodup chain
  refine ⟨chains,
    { chain := fun bucket first isBucket => (house bucket first isBucket).1
      onChain := fun bucket inBounds index member node holds => ?_
      first := fun bucket inBounds index member node holds => ?_
      list := layout.ordered.chain
      linked := fun index node holds => ?_
      chained := chained_perm layout nodup members
      filled := fun index => (layout.filled_iff index).symm
      hashed := fun index node holds => ?_
      distinct := fun first second firstNode secondNode firstHolds secondHolds same => ?_
      size := layout.size.trans (List.length_map _).symm
      occupied := layout.occupied.trans (List.length_map _).symm }⟩
  · have isBucket := ((members bucket inBounds index).1 member).2
    rw [bucketAt, holds] at isBucket
    exact Option.some.inj isBucket
  · obtain ⟨head, isBucket⟩ := headed bucket inBounds
    obtain ⟨last, chain⟩ := (house bucket head isBucket).1
    rw [isBucket, Option.some.injEq]
    exact ChainField.chain_prev_eq_none_iff chain member holds
  · exact (layout.ordered.linked index node holds).2
      (layout.stored index (Option.isSome_iff_exists.2 ⟨node, holds⟩))
  · exact named node.record (List.mem_map_of_mem (cell_of_node layout holds))
  · exact congrArg Prod.fst (cell_unique distinct (cell_of_node layout firstHolds)
      (cell_of_node layout secondHolds) same)

include named distinct in
theorem finds_of_layout [EquivBEq κ] [LawfulHashable κ] (layout : Layout cache cells) :
    cache.Finds := by
  intro key
  rcases layout.find_cases (HashCode.shifted key) key with ⟨missed, absent⟩ |
    ⟨before, slot, record, after, found, rfl, holds⟩
  · refine ⟨none, missed, fun index => ⟨fun found => by contradiction, ?_⟩⟩
    rintro ⟨node, stored, same⟩
    have member : node.record ∈ cells.map Prod.snd :=
      List.mem_map_of_mem (cell_of_node layout stored)
    exact absurd ((Record.holds_iff (named _ member)).2 same) (absent _ member)
  · have inCells : (slot, record) ∈ before ++ (slot, record) :: after := by simp
    have isKey : record.key == key :=
      (Record.holds_iff (named record (List.mem_map_of_mem inCells))).1 holds
    refine ⟨some slot, found, fun index => ⟨?_, ?_⟩⟩
    · rintro ⟨⟩
      obtain ⟨node, stored, rfl⟩ := layout.node_of_mem inCells
      exact ⟨node, stored, isKey⟩
    · rintro ⟨node, stored, same⟩
      have sameCell := cell_unique distinct inCells (cell_of_node layout stored)
        (PartialEquivBEq.trans isKey (PartialEquivBEq.symm same))
      exact congrArg (fun cell : Cell κ ν => some cell.1) sameCell

end Layouts

/-! ## Histories -/

/-- A fresh cache serves every history. Afterwards it is represented by one list and the chains of
its buckets, and lookups find the one node for a key. -/
theorem keeps_list_and_chains [EquivBEq κ] [LawfulHashable κ] {limit : Nat}
    (large : minLimit < limit) (requests : List (CacheRequest κ ν)) :
    ∃ (fresh cache : RoundCache κ ν) (outcomes : List (CacheOutcome κ ν)) (order : List Nat)
      (chains : Nat → List Nat),
      ofLimit limit = .ok fresh ∧
      serveAll RoundCache.serve fresh requests = .ok (cache, outcomes) ∧
      cache.Represents order chains ∧ cache.Finds := by
  obtain ⟨fresh, built, recalls⟩ := recalls_of_ofLimit (κ := κ) (ν := ν) large
  have step : ∀ {cache : RoundCache κ ν} (request : CacheRequest κ ν),
      (∃ entries, cache.Recalls limit entries) → ∃ served outcome,
        cache.serve request = .ok (served, outcome) ∧ ∃ entries, served.Recalls limit entries := by
    rintro cache request ⟨entries, recalls⟩
    obtain ⟨served, outcome, step, _, _, recallsNext⟩ := recalls.serve request
    exact ⟨served, outcome, step, _, recallsNext⟩
  obtain ⟨cache, outcomes, run, entries, timeline, _, _, shows, _, _, named, matching, distinct⟩ :=
    serveAll_keeps step requests ⟨[], recalls⟩
  obtain ⟨cells, layout, records⟩ := shows.laidOut
  rw [← records] at named matching
  have apart := matching.distinct distinct
  obtain ⟨chains, represents⟩ := represents_of_layout named apart layout
  exact ⟨fresh, cache, outcomes, _, chains, built, run, represents,
    finds_of_layout named apart layout⟩

/-- Sixty keys that all collide, of which some are evicted, one is removed and one comes back. -/
theorem keeps_list_and_chains_colliding_keys :
    minLimit < 51 ∧
    ∃ (fresh cache : RoundCache Key Nat) (outcomes : List (CacheOutcome Key Nat))
      (order : List Nat) (chains : Nat → List Nat),
      ofLimit 51 = .ok fresh ∧
      serveAll (@RoundCache.serve Key Nat _ (KeyHashing.constant 7).hashable) fresh
        (((List.range 60).map fun number : Nat => .put (Key.exact (.int number)) number) ++
          [.remove (Key.exact (.int 20)), .put (Key.exact (.int 3)) 4]) = .ok (cache, outcomes) ∧
      @Represents Key Nat _ (KeyHashing.constant 7).hashable cache order chains ∧
      @Finds Key Nat _ (KeyHashing.constant 7).hashable cache := by
  obtain ⟨fresh, cache, outcomes, order, chains, built, run, represents, finds⟩ :=
    @keeps_list_and_chains Key Nat _ (KeyHashing.constant 7).hashable _
      (KeyHashing.constant 7).lawfulHashable 51 (by decide)
      (((List.range 60).map fun number : Nat => .put (Key.exact (.int number)) number) ++
        [.remove (Key.exact (.int 20)), .put (Key.exact (.int 3)) 4])
  exact ⟨by decide, fresh, cache, outcomes, order, chains, built, run, represents, finds⟩

end BoundedCache.RoundCache
