import BoundedCache.Proofs.Access.Handles
import BoundedCache.Proofs.Access.Recency

/-!
# Access maps are lists in the order of last use

An access map shows a list when its handle list holds the entries in their order and its index
leads from each key to the handle of its entry. Every request succeeds, is answered as the list
answers it, and leaves a map that shows the list after the request.
-/

namespace BoundedCache

variable {κ ν : Type} [BEq κ] [Hashable κ]

/-! ## Indexes -/

/-- The index leads from each key to the handle of its entry. -/
def Indexes (index : Std.HashMap κ Nat) (cells : List (Nat × κ × ν)) : Prop :=
  ∀ key handle, index[key]? = some handle ↔ ∃ entry, (handle, entry) ∈ cells ∧ entry.1 == key

namespace Indexes

variable {index : Std.HashMap κ Nat} {cells before after : List (Nat × κ × ν)} {handle : Nat}
  {entry : κ × ν} {key : κ}

theorem of_perm {others : List (Nat × κ × ν)} (indexes : Indexes index cells)
    (same : others.Perm cells) : Indexes index others := by
  intro key handle
  rw [indexes key handle]
  simp only [same.mem_iff]

theorem eq_none (indexes : Indexes index cells)
    (absent : ∀ other ∈ cells.map Prod.snd, ¬ other.1 == key) : index[key]? = none := by
  rw [Option.eq_none_iff_forall_ne_some]
  intro handle found
  obtain ⟨entry, member, holds⟩ := (indexes key handle).1 found
  exact absent entry (List.mem_map_of_mem member) holds

theorem eq_some (indexes : Indexes index cells) (member : (handle, entry) ∈ cells)
    (holds : entry.1 == key) : index[key]? = some handle :=
  (indexes key handle).2 ⟨entry, member, holds⟩

variable [EquivBEq κ]

theorem replace (indexes : Indexes index (before ++ (handle, entry) :: after))
    {other : κ × ν} (same : entry.1 == other.1) :
    Indexes index (before ++ (handle, other) :: after) := by
  intro key slot
  rw [indexes key slot]
  simp only [List.mem_append, List.mem_cons]
  constructor
  · rintro ⟨found, inBefore | isHere | inAfter, holds⟩
    · exact ⟨found, .inl inBefore, holds⟩
    · obtain ⟨rfl, rfl⟩ := Prod.mk.inj isHere
      exact ⟨other, .inr (.inl rfl), PartialEquivBEq.trans (PartialEquivBEq.symm same) holds⟩
    · exact ⟨found, .inr (.inr inAfter), holds⟩
  · rintro ⟨found, inBefore | isHere | inAfter, holds⟩
    · exact ⟨found, .inl inBefore, holds⟩
    · obtain ⟨rfl, rfl⟩ := Prod.mk.inj isHere
      exact ⟨entry, .inr (.inl rfl), PartialEquivBEq.trans same holds⟩
    · exact ⟨found, .inr (.inr inAfter), holds⟩

variable [LawfulHashable κ]

theorem insert (indexes : Indexes index cells)
    (absent : ∀ other ∈ cells.map Prod.snd, ¬ other.1 == key) (handle : Nat) (value : ν) :
    Indexes (index.insert key handle) ((handle, key, value) :: cells) := by
  intro otherKey slot
  rw [Std.HashMap.getElem?_insert]
  by_cases same : key == otherKey
  · rw [if_pos same]
    constructor
    · intro found
      rw [← Option.some.inj found]
      exact ⟨(key, value), List.mem_cons_self, same⟩
    · rintro ⟨other, member, holds⟩
      rcases List.mem_cons.1 member with isHere | inCells
      · rw [(Prod.mk.inj isHere).1]
      · exact absurd (PartialEquivBEq.trans holds (PartialEquivBEq.symm same))
          (absent other (List.mem_map_of_mem inCells))
  · rw [if_neg same, indexes otherKey slot]
    constructor
    · rintro ⟨other, inCells, holds⟩
      exact ⟨other, List.mem_cons_of_mem _ inCells, holds⟩
    · rintro ⟨other, member, holds⟩
      rcases List.mem_cons.1 member with isHere | inCells
      · rw [(Prod.mk.inj isHere).2] at holds
        exact absurd holds same
      · exact ⟨other, inCells, holds⟩

theorem erase (indexes : Indexes index (before ++ (handle, entry) :: after))
    (holds : entry.1 == key)
    (apart : ∀ other ∈ (before ++ after).map Prod.snd, ¬ other.1 == key) :
    Indexes (index.erase key) (before ++ after) := by
  intro otherKey slot
  rw [Std.HashMap.getElem?_erase]
  by_cases same : key == otherKey
  · rw [if_pos same]
    constructor
    · intro found
      contradiction
    · rintro ⟨other, member, otherHolds⟩
      exact absurd (PartialEquivBEq.trans otherHolds (PartialEquivBEq.symm same))
        (apart other (List.mem_map_of_mem member))
  · rw [if_neg same, indexes otherKey slot]
    simp only [List.mem_append, List.mem_cons]
    constructor
    · rintro ⟨other, inBefore | isHere | inAfter, otherHolds⟩
      · exact ⟨other, .inl inBefore, otherHolds⟩
      · rw [(Prod.mk.inj isHere).2] at otherHolds
        exact absurd (PartialEquivBEq.trans (PartialEquivBEq.symm holds) otherHolds) same
      · exact ⟨other, .inr inAfter, otherHolds⟩
    · rintro ⟨other, inBefore | inAfter, otherHolds⟩
      · exact ⟨other, .inl inBefore, otherHolds⟩
      · exact ⟨other, .inr (.inr inAfter), otherHolds⟩

end Indexes

/-! ## Maps that show a list -/

namespace AccessMap

/-- The map holds these entries in this order, and finds each by its key. -/
structure Shows (map : AccessMap κ ν) (entries : List (κ × ν)) : Prop where
  distinct : Recency.Distinct entries
  laidOut : ∃ cells, map.entries.Holds cells ∧ Indexes map.index cells ∧
    cells.map Prod.snd = entries
  size : map.index.size = entries.length

theorem shows_empty (capacity : Capacity) : (empty capacity : AccessMap κ ν).Shows [] where
  distinct := Recency.distinct_nil
  laidOut := ⟨[], HandleList.holds_empty capacity, by simp [Indexes, empty], rfl⟩
  size := by simp [empty]

theorem shows_clear (map : AccessMap κ ν) : map.clear.Shows [] where
  distinct := Recency.distinct_nil
  laidOut := ⟨[], HandleList.holds_empty _, by simp [Indexes, clear], rfl⟩
  size := by simp [clear]

/-- A request succeeds as it does on the list. -/
def Realizes (map : AccessMap κ ν) (entries : List (κ × ν)) (request : CacheRequest κ ν) : Prop :=
  ∃ served, map.serve request = .ok (served, Recency.answer entries request) ∧
    served.Shows (Recency.next map.capacity.val entries request) ∧
    served.capacity = map.capacity

/-- The map shows the entries and has this capacity. -/
def Recalls (capacity : Nat) (map : AccessMap κ ν) (entries : List (κ × ν)) : Prop :=
  map.Shows entries ∧ map.capacity.val = capacity

namespace Shows

variable {map : AccessMap κ ν} {entries : List (κ × ν)} {key : κ}

theorem length_le (shows : map.Shows entries) : entries.length ≤ map.capacity.val := by
  obtain ⟨cells, holds, _, rfl⟩ := shows.laidOut
  rw [List.length_map]
  exact holds.bounded

theorem isFull_iff (shows : map.Shows entries) :
    map.entries.isFull = true ↔ ¬ entries.length < map.capacity.val := by
  obtain ⟨cells, holds, _, rfl⟩ := shows.laidOut
  rw [holds.isFull_iff, List.length_map, Nat.not_lt, AccessMap.capacity]

variable [EquivBEq κ]

/-- The index finds nothing, or the cells fall apart at the one that it finds. -/
theorem find_cases (shows : map.Shows entries) (key : κ) :
    (map.index[key]? = none ∧ Recency.lookup entries key = none ∧
      ∀ other ∈ entries, ¬ other.1 == key) ∨
    ∃ before handle entry after, map.index[key]? = some handle ∧
      Recency.lookup entries key = some entry ∧ (entry.1 == key) = true ∧
      Recency.without entries key = (before ++ after).map Prod.snd ∧
      entries = (before ++ (handle, entry) :: after).map Prod.snd ∧
      map.entries.Holds (before ++ (handle, entry) :: after) ∧
      Indexes map.index (before ++ (handle, entry) :: after) := by
  obtain ⟨cells, holds, indexes, rfl⟩ := shows.laidOut
  rcases shows.distinct.lookup_cases key with ⟨missed, absent⟩ |
    ⟨first, entry, last, split, named, found, others⟩
  · exact .inl ⟨indexes.eq_none absent, missed, absent⟩
  · obtain ⟨before, rest, rfl, rfl, restSplit⟩ := List.map_eq_append_iff.1 split
    obtain ⟨⟨handle, _⟩, after, rfl, rfl, rfl⟩ := List.map_eq_cons_iff.1 restSplit
    refine .inr ⟨before, handle, _, after, indexes.eq_some (by simp) named, found, named, ?_, rfl,
      holds, indexes⟩
    rw [others, List.map_append]

/-! ### Lookups -/

theorem get (shows : map.Shows entries) (key : κ) : Realizes map entries (.get key) := by
  have distinct := shows.distinct.next map.capacity.val (.get key)
  rcases shows.find_cases key with ⟨noHandle, missed, absent⟩ |
    ⟨before, handle, entry, after, isHandle, found, named, others, split, holds, indexes⟩
  · refine ⟨{ map with counters := ⟨map.counters.core.countMiss⟩ }, ?_, ?_, rfl⟩
    · simp [AccessMap.serve, AccessMap.get, use, noHandle, Recency.answer, missed]
    · rw [Recency.next, missed, Recency.without_of_absent absent]
      exact ⟨shows.distinct, shows.laidOut, shows.size⟩
  · obtain ⟨nodes, moved, movedHolds⟩ := holds.bringToFront
    have value := movedHolds.get? List.mem_cons_self
    let reordered : HandleList (κ × ν) := { map.entries with nodes }
    rw [Recency.next, found, others] at distinct
    refine ⟨{ map with entries := reordered, counters := ⟨map.counters.core.countHit⟩ }, ?_, ?_,
      rfl⟩
    · simp [AccessMap.serve, AccessMap.get, use, isHandle, moved, value, Recency.answer, found,
        reordered]
    · rw [Recency.next, found, others]
      refine ⟨distinct, ⟨_, movedHolds, indexes.of_perm List.perm_middle.symm, rfl⟩, ?_⟩
      refine shows.size.trans ?_
      rw [split]
      simp only [List.length_map, List.length_append, List.length_cons, Option.toList_some,
        List.length_nil]
      omega

variable [LawfulHashable κ]

theorem contains (shows : map.Shows entries) (key : κ) : Realizes map entries (.contains key) := by
  refine ⟨map, ?_, shows, rfl⟩
  have answer : map.contains key = (Recency.lookup entries key).isSome := by
    rw [AccessMap.contains, Std.HashMap.contains_eq_isSome_getElem?]
    rcases shows.find_cases key with ⟨noHandle, missed, _⟩ |
      ⟨_, _, _, _, isHandle, found, _⟩
    · rw [noHandle, missed]
      rfl
    · rw [isHandle, found]
      rfl
  rw [AccessMap.serve, answer]
  rfl

/-! ### Removal -/

theorem size_erase (shows : map.Shows entries) {handle : Nat}
    (isHandle : map.index[key]? = some handle) :
    (map.index.erase key).size = entries.length - 1 := by
  have isMember : key ∈ map.index := by
    rw [Std.HashMap.mem_iff_isSome_getElem?, isHandle]
    rfl
  rw [Std.HashMap.size_erase, if_pos isMember, shows.size]

theorem remove (shows : map.Shows entries) (key : κ) : Realizes map entries (.remove key) := by
  rcases shows.find_cases key with ⟨noHandle, missed, absent⟩ |
    ⟨before, handle, entry, after, isHandle, found, named, others, split, holds, indexes⟩
  · refine ⟨map, ?_, ?_, rfl⟩
    · simp [AccessMap.serve, AccessMap.remove, noHandle, Recency.answer, missed]
    · rw [Recency.next, Recency.without_of_absent absent]
      exact shows
  · obtain ⟨nodes, removed, rest⟩ := holds.remove
    have distinct := shows.distinct.next map.capacity.val (.remove key)
    have apart : ∀ other ∈ (before ++ after).map Prod.snd, ¬ other.1 == key := by
      rw [← others]
      intro other member
      simpa using (List.mem_filter.1 member).2
    let smaller : AccessMap κ ν :=
      { map with entries := { map.entries with nodes }, index := map.index.erase key }
    refine ⟨{ smaller with counters := ⟨map.counters.core.countRemoval⟩ }, ?_, ?_, rfl⟩
    · simp [AccessMap.serve, AccessMap.remove, isHandle, removed, Recency.answer, found, smaller]
    · rw [Recency.next] at distinct ⊢
      rw [others] at distinct ⊢
      refine ⟨distinct, ⟨_, rest, indexes.erase named apart, rfl⟩, ?_⟩
      refine (shows.size_erase isHandle).trans ?_
      rw [split]
      simp only [List.length_map, List.length_append, List.length_cons]
      omega

/-- The last entry can be taken out, and its key leaves the index. -/
theorem popOldest {entry : κ × ν} (shows : map.Shows (entries ++ [entry])) :
    ∃ smaller, map.popOldest = .ok (smaller, some entry) ∧ smaller.Shows entries ∧
      smaller.capacity = map.capacity ∧ smaller.counters = map.counters := by
  obtain ⟨cells, holds, indexes, split⟩ := shows.laidOut
  obtain ⟨before, _, rfl, rfl, lastSplit⟩ := List.map_eq_append_iff.1 split
  obtain ⟨⟨handle, _⟩, _, rfl, rfl, nothing⟩ := List.map_eq_cons_iff.1 lastSplit
  cases List.map_eq_nil_iff.1 nothing
  obtain ⟨nodes, popped, shorter⟩ := holds.popBack
  have isHandle := indexes.eq_some (List.mem_append_right before (List.mem_singleton_self _))
    (BEq.refl _)
  have apart := shows.distinct.apart (BEq.refl _)
  rw [List.append_nil] at apart
  have dropped := indexes.erase (BEq.refl _) (by rwa [List.append_nil])
  rw [List.append_nil] at dropped
  refine ⟨{ map with entries := { map.entries with nodes }, index := map.index.erase _ }, ?_,
    ⟨shows.distinct.sublist (List.sublist_append_left _ _), ⟨before, shorter, dropped, rfl⟩, ?_⟩,
    rfl, rfl⟩
  · simp [AccessMap.popOldest, popped]
  · refine (shows.size_erase isHandle).trans ?_
    simp

/-! ### Storing -/

/-- A full map drops its last entry to make room. -/
theorem makeRoom (shows : map.Shows entries) :
    ∃ roomy, map.makeRoom = .ok roomy ∧
      roomy.Shows (Recency.makeRoom map.capacity.val entries) ∧
      roomy.capacity = map.capacity ∧
      roomy.counters.core = map.counters.core +
        { evictions := if entries.length < map.capacity.val then 0 else 1 } := by
  by_cases room : entries.length < map.capacity.val
  · have notFull : ¬ map.entries.isFull = true := fun full => shows.isFull_iff.1 full room
    refine ⟨map, ?_, ?_, rfl, ?_⟩
    · rw [AccessMap.makeRoom, if_neg notFull]
      rfl
    · rw [Recency.makeRoom, if_pos room]
      exact shows
    · rw [if_pos room]
      rfl
  · have full : map.entries.isFull = true := shows.isFull_iff.2 room
    have notEmpty : entries ≠ [] := by
      rintro rfl
      exact room map.capacity.pos
    obtain ⟨others, entry, rfl⟩ := (List.eq_nil_or_concat' entries).resolve_left notEmpty
    obtain ⟨smaller, popped, showsOthers, sameCapacity, sameCounters⟩ := shows.popOldest
    refine ⟨{ smaller with counters := ⟨smaller.counters.core.countEviction⟩ }, ?_, ?_,
      sameCapacity, ?_⟩
    · simp [AccessMap.makeRoom, full, popped]
    · rw [Recency.makeRoom, if_neg room, List.dropLast_concat]
      exact ⟨showsOthers.distinct, showsOthers.laidOut, showsOthers.size⟩
    · rw [if_neg room, sameCounters]
      rfl

/-- A new key comes to the front of a map with room. -/
theorem add (shows : map.Shows entries) (room : entries.length < map.capacity.val)
    (absent : ∀ other ∈ entries, ¬ other.1 == key) (value : ν) :
    ∃ grown, map.add key value = .ok grown ∧ grown.Shows ((key, value) :: entries) ∧
      grown.capacity = map.capacity ∧ grown.counters = ⟨map.counters.core.countInsertion⟩ := by
  obtain ⟨cells, holds, indexes, rfl⟩ := shows.laidOut
  rw [List.length_map] at room
  obtain ⟨nodes, handle, added, larger⟩ := holds.add room (key, value)
  have notMember : key ∉ map.index := by
    rw [Std.HashMap.mem_iff_isSome_getElem?, indexes.eq_none absent]
    exact Bool.false_ne_true
  let grown : AccessMap κ ν :=
    { map with entries := { map.entries with nodes }, index := map.index.insert key handle }
  refine ⟨{ grown with counters := ⟨map.counters.core.countInsertion⟩ }, ?_, ?_, rfl, rfl⟩
  · simp [AccessMap.add, added, grown]
  · refine ⟨?_, ⟨_, larger, indexes.insert absent handle value, rfl⟩, ?_⟩
    · refine List.pairwise_cons.2 ⟨fun other member same => ?_, shows.distinct⟩
      exact absent other member (PartialEquivBEq.symm same)
    · refine (Std.HashMap.size_insert).trans ?_
      rw [if_neg notMember, shows.size, List.length_cons]

theorem put (shows : map.Shows entries) (key : κ) (value : ν) :
    Realizes map entries (.put key value) := by
  rcases shows.find_cases key with ⟨noHandle, missed, absent⟩ |
    ⟨before, handle, entry, after, isHandle, found, named, others, split, holds, indexes⟩
  · obtain ⟨roomy, made, showsRoomy, sameCapacity, _⟩ := shows.makeRoom
    have room : (Recency.makeRoom map.capacity.val entries).length < roomy.capacity.val := by
      rw [sameCapacity]
      exact Recency.length_makeRoom_lt map.capacity.pos shows.length_le
    have fewer := Recency.makeRoom_sublist map.capacity.val entries
    obtain ⟨grown, added, showsGrown, stillCapacity, _⟩ :=
      showsRoomy.add room (fun other member => absent other (fewer.subset member)) value
    refine ⟨grown, ?_, ?_, stillCapacity.trans sameCapacity⟩
    · simp [AccessMap.serve, AccessMap.put, noHandle, made, added, Recency.answer, missed]
    · rw [Recency.next, missed]
      exact showsGrown
  · have distinct := shows.distinct.next map.capacity.val (.put key value)
    obtain ⟨nodes, moved, movedHolds⟩ := holds.bringToFront
    rw [← List.nil_append ((handle, entry) :: _)] at movedHolds
    obtain ⟨old, sameCapacity, replaced⟩ := movedHolds.replace (key, value)
    have movedIndexes : Indexes map.index ([] ++ (handle, entry) :: (before ++ after)) :=
      indexes.of_perm List.perm_middle.symm
    let revised :=
      (({ map.entries with nodes } : HandleList (κ × ν)).replace handle (key, value)).1
    refine ⟨{ map with entries := revised, counters := ⟨map.counters.core.countUpdate⟩ }, ?_, ?_,
      sameCapacity⟩
    · simp [AccessMap.serve, AccessMap.put, isHandle, moved, old, Recency.answer, found, revised]
    · rw [Recency.next, found] at distinct ⊢
      simp only [others] at distinct ⊢
      refine ⟨distinct, ⟨_, replaced, movedIndexes.replace named, rfl⟩, ?_⟩
      refine shows.size.trans ?_
      rw [split]
      simp only [List.length_map, List.length_append, List.length_cons]
      omega

/-! ### Requests -/

/-- Every request to a map that shows a list is served as by the list. -/
theorem serve (shows : map.Shows entries) (request : CacheRequest κ ν) :
    Realizes map entries request := by
  cases request with
  | get key => exact shows.get key
  | put key value => exact shows.put key value
  | remove key => exact shows.remove key
  | contains key => exact shows.contains key
  | size =>
      refine ⟨map, ?_, shows, rfl⟩
      rw [AccessMap.serve, AccessMap.size, shows.size]
      rfl
  | clear => exact ⟨map.clear, rfl, shows_clear map, rfl⟩

end Shows

end AccessMap

end BoundedCache
