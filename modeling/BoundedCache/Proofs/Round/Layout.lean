import BoundedCache.Proofs.Round.Buckets
import BoundedCache.Proofs.Round.Order
import BoundedCache.Proofs.Round.Timeline

/-!
# The layout of a round cache

A round cache in use is laid out as a list of cells, each a record with its slot, from the head of
its list to the tail. The round list is in this order, the buckets house the same slots, and no
other slot is filled. Every operation succeeds on a cache that is laid out, and leaves one that is
laid out with the cells it names. What else changes is told by the frame of the cache.
-/

namespace BoundedCache

open Round

variable {κ ν : Type}

namespace Round

/-- A record with its slot. -/
abbrev Cell (κ ν : Type) := Nat × Record κ ν

def Node.record (node : Node (Entry κ ν)) : Record κ ν :=
  ⟨node.item.hash, node.item.key, node.item.value, node.lastVisit⟩

theorem records_of_reorders {before after : RoundList (Entry κ ν)}
    (reorders : before.Reorders after) : Slab.Agree Node.record before.nodes after.nodes :=
  reorders.agree.comp fun seen : Entry κ ν × Nat =>
    (⟨seen.1.hash, seen.1.key, seen.1.value, seen.2⟩ : Record κ ν)

theorem places_of_reorders {before after : RoundList (Entry κ ν)}
    (reorders : before.Reorders after) : Slab.Agree Node.place before.nodes after.nodes :=
  reorders.agree.comp fun seen : Entry κ ν × Nat => (seen.1.hash, seen.1.bucket)

/-- How the slots of a cache are filled and linked: `cells` are its records from head to tail. -/
structure Layout (cache : RoundCache κ ν) (cells : List (Cell κ ν)) : Prop where
  wellFormed : cache.list.nodes.WellFormed
  ordered : cache.list.Ordered (cells.map Prod.fst)
  housed : Housed cache.buckets cache.list.nodes (cells.map Prod.fst)
  held : ∀ cell ∈ cells, (cache.list.nodes.get? cell.1).map Node.record = some cell.2
  stored : ∀ index, (cache.list.nodes.get? index).isSome → index ∈ cells.map Prod.fst
  size : cache.size = cells.length

/-- All of a cache but its entries. -/
structure Frame where
  limit : Nat
  pace : Pace
  core : Counters
  victimMisses : Nat := 0
  walked : Nat := 0
  scanned : Nat := 0

end Round

namespace RoundCache

def pace (cache : RoundCache κ ν) : Pace :=
  ⟨cache.roundLength, cache.tick, cache.visits, cache.list.headers, cache.list.rounds⟩

def frame (cache : RoundCache κ ν) : Frame :=
  ⟨cache.limit, cache.pace, cache.core, cache.victimMisses, cache.list.walked, cache.list.scanned⟩

@[simp] theorem pace_advanceClock (cache : RoundCache κ ν) :
    cache.advanceClock.pace = cache.pace.advance := by
  have roundLength : cache.pace.roundLength = cache.roundLength := rfl
  have visits : cache.pace.visits = cache.visits := rfl
  rw [advanceClock, Pace.advance, roundLength, visits]
  split <;> rfl

@[simp] theorem frame_advanceClock (cache : RoundCache κ ν) :
    cache.advanceClock.frame = { cache.frame with pace := cache.pace.advance } := by
  rw [frame, pace_advanceClock, advanceClock]
  split <;> rfl

theorem tick_advanceClock (cache : RoundCache κ ν) :
    cache.advanceClock.tick = cache.pace.advance.tick := by
  rw [← pace_advanceClock]
  rfl

theorem frame_of_reorders (cache : RoundCache κ ν) {list : RoundList (Round.Entry κ ν)}
    (reorders : cache.list.Reorders list) : { cache with list }.frame = cache.frame := by
  simp only [frame, pace, reorders.headers, reorders.rounds, reorders.walked, reorders.scanned]

end RoundCache

namespace Round.Layout

variable {cache : RoundCache κ ν} {cells others before after : List (Cell κ ν)} {index : Nat}
  {record : Record κ ν}

/-! ## Reading a layout -/

theorem slots_nodup (layout : Layout cache cells) : (cells.map Prod.fst).Nodup :=
  ChainField.chain_nodup layout.ordered.chain

theorem node_of_mem (layout : Layout cache cells) (member : (index, record) ∈ cells) :
    ∃ node, cache.list.nodes.get? index = some node ∧ node.record = record :=
  Option.map_eq_some_iff.1 (layout.held _ member)

theorem isSome_of_mem (layout : Layout cache cells) (member : (index, record) ∈ cells) :
    (cache.list.nodes.get? index).isSome := by
  obtain ⟨node, holds, _⟩ := layout.node_of_mem member
  simp [holds]

/-- The filled slots are those of the cells. -/
theorem filled_iff (layout : Layout cache cells) (slot : Nat) :
    slot ∈ cells.map Prod.fst ↔ (cache.list.nodes.get? slot).isSome := by
  refine ⟨fun isSlot => ?_, layout.stored slot⟩
  obtain ⟨cell, member, rfl⟩ := List.mem_map.1 isSlot
  exact layout.isSome_of_mem member

theorem occupied (layout : Layout cache cells) :
    cache.list.nodes.occupied = cells.length := by
  rw [layout.wellFormed.occupied_eq layout.slots_nodup layout.filled_iff, List.length_map]

theorem mem_without (layout : Layout cache (before ++ (index, record) :: after)) (slot : Nat) :
    slot ∈ (before ++ after).map Prod.fst ↔
      slot ∈ (before ++ (index, record) :: after).map Prod.fst ∧ slot ≠ index := by
  have distinct := layout.slots_nodup
  rw [List.map_append, List.map_cons, List.nodup_middle, List.nodup_cons,
    ← List.map_append] at distinct
  constructor
  · intro member
    refine ⟨?_, fun same => distinct.1 (same ▸ member)⟩
    simp only [List.map_append, List.map_cons, List.mem_append, List.mem_cons] at member ⊢
    tauto
  · rintro ⟨member, different⟩
    simp only [List.map_append, List.map_cons, List.mem_append, List.mem_cons] at member ⊢
    tauto

/-- A lookup tells whether there is a cell for the key, and where. -/
theorem find_cases [BEq κ] (layout : Layout cache cells) (hash : UInt32) (key : κ) :
    (cache.find hash key = .ok none ∧
      ∀ record ∈ cells.map Prod.snd, ¬ record.holds hash key) ∨
    ∃ before index record after, cache.find hash key = .ok (some index) ∧
      cells = before ++ (index, record) :: after ∧ record.holds hash key := by
  have matches_iff : ∀ cell ∈ cells, Housed.matchesAt cache.list.nodes hash key cell.1 =
      cell.2.holds hash key := by
    intro cell member
    obtain ⟨node, holds, isRecord⟩ := layout.node_of_mem member
    rw [← isRecord]
    simp [Housed.matchesAt, holds, Record.holds, Node.record]
  rcases layout.housed.find_cases hash key with ⟨missed, none⟩ | ⟨index, isSlot, found, matching⟩
  · refine .inl ⟨missed, fun record member => ?_⟩
    obtain ⟨cell, inCells, rfl⟩ := List.mem_map.1 member
    rw [← matches_iff cell inCells, none cell.1 (List.mem_map_of_mem inCells)]
    exact Bool.false_ne_true
  · obtain ⟨cell, inCells, rfl⟩ := List.mem_map.1 isSlot
    obtain ⟨before, after, split⟩ := List.append_of_mem inCells
    exact .inr ⟨before, cell.1, cell.2, after, found, split, matches_iff cell inCells ▸ matching⟩

/-! ## The empty cache -/

theorem cleared (positive : 0 < cache.buckets.size) : Layout cache.clear [] where
  wellFormed := Slab.wellFormed_empty
  ordered := RoundList.ordered_clear cache.list
  housed := Housed.empty positive _
  held := by simp
  stored := by simp [RoundCache.clear, RoundList.clear]
  size := rfl

/-! ## Visiting -/

theorem tally (layout : Layout cache cells) (event : Counters → Counters) :
    Layout (cache.tally event) cells :=
  ⟨layout.wellFormed, layout.ordered, layout.housed, layout.held, layout.stored, layout.size⟩

theorem advanceClock (layout : Layout cache cells) : Layout cache.advanceClock cells := by
  obtain ⟨wellFormed, ordered, housed, held, stored, size⟩ := layout
  rw [RoundCache.advanceClock]
  split
  · exact ⟨wellFormed, ⟨ordered.chain, ordered.linked⟩, housed, held, stored, size⟩
  · exact ⟨wellFormed, ordered, housed, held, stored, size⟩

/-- The same slots in another order, with other visits. -/
theorem relist (layout : Layout cache cells) {list : RoundList (Entry κ ν)}
    (agree : Slab.Agree Node.item cache.list.nodes list.nodes)
    (ordered : list.Ordered (others.map Prod.fst))
    (held : ∀ cell ∈ others, (list.nodes.get? cell.1).map Node.record = some cell.2)
    (same : ∀ slot, slot ∈ others.map Prod.fst ↔ slot ∈ cells.map Prod.fst)
    (length : others.length = cells.length) : Layout { cache with list } others where
  wellFormed := agree.wellFormed layout.wellFormed
  ordered := ordered
  housed :=
    (layout.housed.of_agree (agree.comp fun item => (item.hash, item.bucket))).of_mem_iff same
  held := held
  stored slot filled := by
    rw [agree.isSome_get?] at filled
    exact (same slot).2 (layout.stored slot filled)
  size := layout.size.trans length.symm

/-- A visited record moves to the head with the time of the visit. -/
theorem visit (layout : Layout cache (before ++ (index, record) :: after)) :
    ∃ result, cache.visit index = .ok result ∧
      Layout result ((index, { record with time := cache.pace.advance.tick }) ::
        (before ++ after)) ∧
      result.frame = { cache.frame with pace := cache.pace.advance } := by
  have advanced := layout.advanceClock
  have member : (index, record) ∈ before ++ (index, record) :: after := by simp
  obtain ⟨node, holds, isRecord⟩ := advanced.node_of_mem member
  obtain ⟨nodes, visited, ordered, seen, items⟩ :=
    advanced.ordered.setVisit holds cache.advanceClock.tick
  rw [List.map_append, List.map_cons] at ordered
  obtain ⟨list, moved, reordered, reorders⟩ := ordered.bringToHead
  rw [← List.map_append] at reordered
  refine ⟨{ cache.advanceClock with list }, ?_, ?_, ?_⟩
  · rw [RoundCache.visit, visited]
    simp only [RoundList.toChecked_ok, ok_bind, moved, pure_eq_ok]
  · refine advanced.relist (items.trans (reorders.agree.comp Prod.fst)) reordered ?_ ?_ ?_
    · have records := records_of_reorders reorders
      refine List.forall_mem_cons.2 ⟨?_, fun cell member => ?_⟩
      · refine (records.seen index).trans ?_
        simp only [seen, if_pos, Option.map_some, ← isRecord, RoundCache.tick_advanceClock]
        rfl
      · refine (records.seen cell.1).trans ?_
        have elsewhere := ((layout.mem_without cell.1).1 (List.mem_map_of_mem member)).2
        simp only [seen, if_neg elsewhere]
        refine advanced.held cell ?_
        simp only [List.mem_append, List.mem_cons] at member ⊢
        tauto
    · intro slot
      simp only [List.map_append, List.map_cons, List.mem_append, List.mem_cons]
      tauto
    · simp only [List.length_append, List.length_cons]
      omega
  · let revised : RoundCache κ ν :=
      { cache.advanceClock with list := { cache.advanceClock.list with nodes } }
    exact (RoundCache.frame_of_reorders revised reorders).trans
      (RoundCache.frame_advanceClock cache)

/-! ## Storing -/

theorem revalue (layout : Layout cache (before ++ (index, record) :: after)) (value : ν) :
    ∃ node nodes, cache.list.nodes.fetch index = .ok node ∧ node.item.value = record.value ∧
      cache.list.nodes.modify index (fun node => { node with item := { node.item with value } }) =
        .ok nodes ∧
      Layout (cache.withNodes nodes) (before ++ (index, { record with value }) :: after) := by
  have member : (index, record) ∈ before ++ (index, record) :: after := by simp
  obtain ⟨node, holds, isRecord⟩ := layout.node_of_mem member
  let revised : Node (Entry κ ν) := { node with item := { node.item with value } }
  have written := Slab.get?_write (Slab.lt_size_of_get? holds) (some revised)
  have agree : Slab.Agree (fun node => (node.links, node.linked, node.place)) cache.list.nodes
      (cache.list.nodes.write index (some revised)) := Slab.agree_write holds rfl
  have sameSlots : (before ++ (index, { record with value }) :: after).map Prod.fst =
      (before ++ (index, record) :: after).map Prod.fst := by simp
  refine ⟨node, _, Slab.fetch_eq_ok_iff.2 holds, by rw [← isRecord]; rfl,
    Slab.modify_of_get? holds _, ?_⟩
  refine
    { wellFormed := agree.wellFormed layout.wellFormed
      ordered := sameSlots ▸ layout.ordered.of_agree
        (agree.comp fun seen : ChainLinks × Bool × UInt32 × ChainLinks => (seen.1, seen.2.1))
      housed := sameSlots ▸ layout.housed.of_agree
        (agree.comp fun seen : ChainLinks × Bool × UInt32 × ChainLinks => seen.2.2)
      held := ?_
      stored := ?_
      size := layout.size.trans (by simp) }
  · intro cell inCells
    refine (congrArg (Option.map Node.record) (written cell.1)).trans ?_
    by_cases here : cell = (index, { record with value })
    · rw [here, if_pos rfl, ← isRecord]
      rfl
    · have elsewhere : cell ∈ before ++ after := by
        simp only [List.mem_append, List.mem_cons, here, false_or] at inCells ⊢
        exact inCells
      have different := ((layout.mem_without cell.1).1 (List.mem_map_of_mem elsewhere)).2
      rw [if_neg different]
      refine layout.held cell ?_
      simp only [List.mem_append, List.mem_cons] at elsewhere ⊢
      tauto
  · intro slot filled
    rw [sameSlots]
    refine layout.stored slot ?_
    rw [← agree.isSome_get?]
    exact filled

/-- An entry whose value is replaced moves to the head. -/
theorem overwrite (layout : Layout cache (before ++ (index, record) :: after)) (value : ν) :
    ∃ result, cache.overwrite index value = .ok (result, record.value) ∧
      Layout result ((index, { record with value, time := cache.pace.advance.tick }) ::
        (before ++ after)) ∧
      result.frame =
        { cache.frame with pace := cache.pace.advance, core := cache.core.countUpdate } := by
  obtain ⟨visited, step, visitedLayout, visitedFrame⟩ := layout.visit
  rw [← List.nil_append ((index, _) :: _)] at visitedLayout
  obtain ⟨node, nodes, fetched, oldValue, modified, revised⟩ := visitedLayout.revalue value
  refine ⟨(visited.withNodes nodes).tally Counters.countUpdate, ?_, revised.tally _, ?_⟩
  · rw [RoundCache.overwrite, step, ok_bind, fetched, ok_bind, modified, ok_bind, oldValue]
    rfl
  · have core : visited.frame.core = cache.core := by rw [visitedFrame]; rfl
    calc
      _ = { visited.frame with core := visited.frame.core.countUpdate } := rfl
      _ = _ := by rw [visitedFrame, ← core, visitedFrame]

/-- A node was stored, and is on the chains in front of the others. -/
theorem grow {grown : RoundCache κ ν} (layout : Layout cache cells) (node : Node (Entry κ ν))
    (records : Slab.Agree Node.record (cache.list.nodes.insert node).1 grown.list.nodes)
    (ordered : grown.list.Ordered ((cache.list.nodes.insert node).2 :: cells.map Prod.fst))
    (housed : Housed grown.buckets grown.list.nodes
      ((cache.list.nodes.insert node).2 :: cells.map Prod.fst))
    (size : grown.size = cache.size + 1) :
    Layout grown (((cache.list.nodes.insert node).2, node.record) :: cells) := by
  have filled := Slab.get?_insert layout.wellFormed node
  have absent : (cache.list.nodes.insert node).2 ∉ cells.map Prod.fst :=
    (List.nodup_cons.1 (ChainField.chain_nodup ordered.chain)).1
  refine
    { wellFormed := records.wellFormed (layout.wellFormed.insert node)
      ordered := ordered
      housed := housed
      held := List.forall_mem_cons.2 ⟨?_, fun cell member => ?_⟩
      stored := fun other isHeld => ?_
      size := size.trans (congrArg Nat.succ layout.size) }
  · refine (records.seen _).trans ?_
    rw [filled, if_pos rfl]
    rfl
  · refine (records.seen cell.1).trans ?_
    have different : cell.1 ≠ (cache.list.nodes.insert node).2 := by
      intro same
      exact absent (same ▸ List.mem_map_of_mem member)
    rw [filled, if_neg different]
    exact layout.held cell member
  · rw [List.map_cons, List.mem_cons]
    have wasHeld : ((cache.list.nodes.insert node).1.get? other).isSome := by
      rw [← records.isSome_get?]
      exact isHeld
    rw [filled] at wasHeld
    by_cases same : other = (cache.list.nodes.insert node).2
    · exact .inl same
    · rw [if_neg same] at wasHeld
      exact .inr (layout.stored other wasHeld)

theorem add (layout : Layout cache cells) (hash : UInt32) (key : κ) (value : ν) :
    ∃ result slot, cache.add hash key value = .ok result ∧
      Layout result ((slot, ⟨hash, key, value, cache.pace.advance.tick⟩) :: cells) ∧
      result.frame =
        { cache.frame with pace := cache.pace.advance, core := cache.core.countInsertion } := by
  have advanced := layout.advanceClock
  let entry : Entry κ ν := { hash, key, value }
  let tick := cache.advanceClock.tick
  let slot := (cache.advanceClock.list.store entry tick).2
  let stored : RoundCache κ ν :=
    { cache.advanceClock with list := (cache.advanceClock.list.store entry tick).1 }
  have vacant : cache.advanceClock.list.nodes.get? slot = none :=
    Slab.get?_insert_snd advanced.wellFormed _
  have filled : ∀ other, stored.list.nodes.get? other =
      if other = slot then some { item := entry, lastVisit := tick }
      else cache.advanceClock.list.nodes.get? other := Slab.get?_insert advanced.wellFormed _
  have fresh : slot ∉ cells.map Prod.fst := by
    intro member
    have held := ChainField.chain_isSome advanced.ordered.chain member
    simp [vacant] at held
  have newHeld : (stored.list.nodes.get? slot).isSome := by simp [filled]
  -- the node is stored first, which neither the list nor the buckets notice
  have storedOrder : stored.list.Ordered (cells.map Prod.fst) :=
    advanced.ordered.store advanced.wellFormed entry tick
  have storedHoused : Housed stored.buckets stored.list.nodes (cells.map Prod.fst) := by
    refine advanced.housed.of_get? fun other member => ?_
    have different : other ≠ slot := fun same => fresh (same ▸ member)
    rw [filled, if_neg different]
  obtain ⟨buckets, nodes, bucketStep, housed, bucketAgree⟩ :=
    storedHoused.linkBucket newHeld fresh
  have linksAgree := bucketAgree (fun node => (node.links, node.linked)) fun _ _ => rfl
  obtain ⟨list, linkStep, ordered, reorders⟩ :=
    (storedOrder.of_agree linksAgree).link ((linksAgree.isSome_get? slot).trans newHeld) fresh
  let housedCache : RoundCache κ ν := { stored with buckets }.withNodes nodes
  let linked : RoundCache κ ν := { housedCache with list, size := stored.size + 1 }
  have linkedLayout : Layout linked ((slot, ⟨hash, key, value, tick⟩) :: cells) :=
    advanced.grow { item := entry, lastVisit := tick }
      ((bucketAgree Node.record fun _ _ => rfl).trans (records_of_reorders reorders)) ordered
      (housed.of_agree (places_of_reorders reorders)) rfl
  refine ⟨linked.tally Counters.countInsertion, slot, ?_, ?_, ?_⟩
  · simp only [stored, slot, entry, tick] at bucketStep linkStep
    simp only [RoundCache.add, bucketStep, ok_bind, RoundCache.withNodes, linkStep,
      RoundList.toChecked_ok, pure_eq_ok, linked, housedCache, stored]
  · rw [← RoundCache.tick_advanceClock]
    exact linkedLayout.tally _
  · have sameFrame : linked.frame = { cache.frame with pace := cache.pace.advance } :=
      (RoundCache.frame_of_reorders housedCache reorders).trans
        (RoundCache.frame_advanceClock cache)
    have sameCore : linked.core = cache.core := congrArg Frame.core sameFrame
    calc
      _ = { linked.frame with core := linked.core.countInsertion } := rfl
      _ = _ := by rw [sameFrame, sameCore]

/-! ## Taking an entry out -/

/-- The slot of an entry that is on no chain any more is emptied. -/
theorem vacate (emptied : RoundCache κ ν)
    (layout : Layout cache (before ++ (index, record) :: after))
    (records : Slab.Agree Node.record cache.list.nodes emptied.list.nodes)
    (ordered : emptied.list.Ordered ((before ++ after).map Prod.fst))
    (housed : Housed emptied.buckets emptied.list.nodes ((before ++ after).map Prod.fst))
    (size : emptied.size = cache.size) :
    ∃ entry, (emptied.vacate index).2 = some entry ∧
      entry.key = record.key ∧ entry.value = record.value ∧
      Layout (emptied.vacate index).1 (before ++ after) := by
  have member : (index, record) ∈ before ++ (index, record) :: after := by simp
  have seen := (records.seen index).trans (layout.held _ member)
  obtain ⟨node, holds, isRecord⟩ := Option.map_eq_some_iff.1 seen
  have sameKey : node.item.key = record.key := congrArg Record.key isRecord
  have sameValue : node.item.value = record.value := congrArg Record.value isRecord
  have erased := Slab.get?_erase emptied.list.nodes index
  have absent : index ∉ (before ++ after).map Prod.fst :=
    fun inRest => ((layout.mem_without index).1 inRest).2 rfl
  have elsewhere : ∀ slot ∈ (before ++ after).map Prod.fst, slot ≠ index :=
    fun slot inRest same => absent (same ▸ inRest)
  refine ⟨node.item, ?_, sameKey, sameValue, ?_⟩
  · have removed := Slab.erase_snd emptied.list.nodes index
    rw [holds] at removed
    exact congrArg (Option.map Node.item) removed
  · refine
      { wellFormed := (records.wellFormed layout.wellFormed).erase index
        ordered := ordered.discard absent
        housed := housed.of_get? fun slot inRest => ?_
        held := fun cell inRest => ?_
        stored := fun slot filled => ?_
        size := ?_ }
    · exact congrArg (Option.map Node.place)
        ((erased slot).trans (if_neg (elsewhere slot inRest)))
    · refine (congrArg (Option.map Node.record) ((erased cell.1).trans
        (if_neg (elsewhere cell.1 (List.mem_map_of_mem inRest))))).trans ?_
      refine (records.seen cell.1).trans (layout.held cell ?_)
      simp only [List.mem_append, List.mem_cons] at inRest ⊢
      tauto
    · have stillFilled : ((emptied.list.nodes.erase index).1.get? slot).isSome := filled
      rw [erased] at stillFilled
      by_cases same : slot = index
      · simp [same] at stillFilled
      · rw [if_neg same, records.isSome_get?] at stillFilled
        exact (layout.mem_without slot).2 ⟨layout.stored slot stillFilled, same⟩
    · have length := layout.size
      simp only [RoundCache.vacate, size]
      simp only [List.length_append, List.length_cons] at length ⊢
      omega

/-- An entry is taken off its bucket and off the list, and its slot is emptied. -/
theorem takeOut (layout : Layout cache (before ++ (index, record) :: after)) :
    ∃ unhoused list entry, cache.unlinkBucket index = .ok unhoused ∧
      unhoused.list.unlink index = .ok list ∧
      ({ unhoused with list }.vacate index).2 = some entry ∧ entry.value = record.value ∧
      Layout ({ unhoused with list }.vacate index).1 (before ++ after) ∧
      ({ unhoused with list }.vacate index).1.frame = cache.frame := by
  have member : (index, record) ∈ before ++ (index, record) :: after := by simp
  obtain ⟨buckets, nodes, bucketStep, housed, bucketAgree⟩ :=
    layout.housed.unlinkBucket (List.mem_map_of_mem member) (layout.isSome_of_mem member)
      layout.mem_without
  let unhoused : RoundCache κ ν := { cache with buckets }.withNodes nodes
  have stillOrdered : unhoused.list.Ordered ((before ++ (index, record) :: after).map Prod.fst) :=
    layout.ordered.of_agree (bucketAgree (fun node => (node.links, node.linked)) fun _ _ => rfl)
  rw [List.map_append, List.map_cons] at stillOrdered
  obtain ⟨list, listStep, ordered, reorders⟩ := stillOrdered.unlink
  rw [← List.map_append] at ordered
  have records : Slab.Agree Node.record cache.list.nodes list.nodes :=
    (bucketAgree Node.record fun _ _ => rfl).trans
      (records_of_reorders reorders)
  have stillHoused : Housed buckets list.nodes ((before ++ after).map Prod.fst) :=
    housed.of_agree (places_of_reorders reorders)
  let emptied : RoundCache κ ν := { unhoused with list }
  obtain ⟨entry, removed, _, sameValue, layoutAfter⟩ :=
    layout.vacate emptied records ordered stillHoused rfl
  have sameFrame : emptied.frame = cache.frame := RoundCache.frame_of_reorders unhoused reorders
  exact ⟨unhoused, list, entry, bucketStep, listStep, removed, sameValue, layoutAfter, sameFrame⟩

/-- An entry at the tail that is old enough is evicted. -/
theorem evict (layout : Layout cache (before ++ [(index, record)]))
    (due : record.time ≤ cache.list.headers.last) :
    ∃ result entry, cache.evict = .ok (result, some (.evicted entry)) ∧ entry.key = record.key ∧
      Layout result before ∧
      result.frame = { cache.frame with core := cache.core.countEviction } := by
  have member : (index, record) ∈ before ++ [(index, record)] := by simp
  obtain ⟨node, holds, isRecord⟩ := layout.node_of_mem member
  have ordered := layout.ordered
  rw [List.map_append, List.map_singleton] at ordered
  have nodeDue : node.lastVisit ≤ cache.list.headers.last := by
    rw [← isRecord] at due
    exact due
  obtain ⟨list, selected, shorter, reorders⟩ :=
    ordered.selectVictim holds nodeDue cache.roundLength
  let reordered : RoundCache κ ν := { cache with list }
  have stillHoused : Housed reordered.buckets reordered.list.nodes
      ((before ++ [(index, record)]).map Prod.fst) :=
    layout.housed.of_agree (places_of_reorders reorders)
  have stored : (reordered.list.nodes.get? index).isSome := by
    have same := reorders.agree.isSome_get? index
    rw [holds] at same
    exact same
  obtain ⟨buckets, nodes, bucketStep, housed, bucketAgree⟩ :=
    stillHoused.unlinkBucket (List.mem_map_of_mem member) stored layout.mem_without
  have records : Slab.Agree Node.record cache.list.nodes nodes :=
    (records_of_reorders reorders).trans
      (bucketAgree Node.record fun _ _ => rfl)
  have stillOrdered : ({ list with nodes } : RoundList (Entry κ ν)).Ordered
      ((before ++ []).map Prod.fst) := by
    rw [List.append_nil]
    exact shorter.of_agree (bucketAgree (fun node => (node.links, node.linked)) fun _ _ => rfl)
  let emptied : RoundCache κ ν := { reordered with buckets }.withNodes nodes
  obtain ⟨entry, removed, sameKey, _, layoutAfter⟩ :=
    layout.vacate emptied records stillOrdered housed rfl
  rw [List.append_nil] at layoutAfter
  refine ⟨(emptied.vacate index).1.tally Counters.countEviction, entry, ?_, sameKey,
    layoutAfter.tally _, ?_⟩
  · have evicted : (emptied.vacate index).2.map RoundCache.Eviction.evicted =
        some (.evicted entry) := by
      rw [removed, Option.map_some]
    simp only [reordered] at bucketStep
    simp only [RoundCache.evict, selected, RoundList.toChecked_ok, ok_bind,
      bucketStep]
    rw [← evicted]
    rfl
  · have sameFrame : emptied.frame = cache.frame :=
      show reordered.frame = cache.frame from RoundCache.frame_of_reorders cache reorders
    calc
      _ = { emptied.frame with core := cache.core.countEviction } := rfl
      _ = _ := by rw [sameFrame]

end Round.Layout

end BoundedCache
