import BoundedCache.Proofs.Round.Layout

/-!
# Round caches are timelines

A round cache shows a timeline when it is laid out with the records of the timeline, has its clock
and its counters, and never had to search for a victim. Every request to such a cache succeeds, and
the cache shows the timeline after a step for this request. So whatever the steps keep holds of
round caches.
-/

namespace BoundedCache

open Round

variable {κ ν : Type} {cache : RoundCache κ ν} {timeline : Timeline κ ν} {start base : Nat}

/-! ## Caches that show a timeline -/

/-- The frame of a cache that never had to search. -/
def Round.Timeline.frame (timeline : Timeline κ ν) : Frame :=
  { limit := timeline.limit, pace := timeline.pace, core := timeline.core }

/-- The cell that a lookup finds is removed. -/
theorem Round.Layout.remove [BEq κ] [Hashable κ] {cache : RoundCache κ ν}
    {before after : List (Cell κ ν)} {index : Nat} {record : Record κ ν} {key : κ}
    (layout : Layout cache (before ++ (index, record) :: after))
    (found : cache.find (HashCode.shifted key) key = .ok (some index)) :
    ∃ result, cache.remove key = .ok (result, some record.value) ∧
      Layout result (before ++ after) ∧
      result.frame = { cache.frame with core := cache.core.countRemoval } := by
  obtain ⟨unhoused, list, entry, unhousing, unlinking, removed, value, layoutAfter, frame⟩ :=
    layout.takeOut
  refine ⟨_, ?_, layoutAfter.tally Counters.countRemoval, ?_⟩
  · simp [RoundCache.remove, found, unhousing, unlinking, removed, value]
  · have core : ({ unhoused with list }.vacate index).1.core = cache.core :=
      congrArg Frame.core frame
    calc
      _ = { ({ unhoused with list }.vacate index).1.frame with
        core := ({ unhoused with list }.vacate index).1.core.countRemoval } := rfl
      _ = _ := by rw [frame, core]

namespace RoundCache

/-- The nodes of the cache are laid out for the records of the timeline, and its clock and counters
are those of the timeline. -/
structure Shows (cache : RoundCache κ ν) (timeline : Timeline κ ν) : Prop where
  laidOut : ∃ cells, Layout cache cells ∧ cells.map Prod.snd = timeline.records
  frame : cache.frame = timeline.frame

theorem shows_of_ofLimit {limit : Nat} (large : minLimit < limit) :
    ∃ fresh : RoundCache κ ν, ofLimit limit = .ok fresh ∧
      fresh.Shows ⟨limit, { roundLength := roundLengthFor limit }, {}, []⟩ := by
  refine ⟨_, if_neg (Nat.not_le_of_lt large), ⟨[], ?_, rfl⟩, rfl⟩
  have positive : 0 < bucketCount limit := by
    simp only [minLimit] at large
    simp only [bucketCount]
    omega
  exact ⟨Slab.wellFormed_empty, RoundList.ordered_empty, Housed.empty positive _, by simp,
    by simp [RoundList.empty], rfl⟩

namespace Shows

theorem size (shows : cache.Shows timeline) : cache.size = timeline.records.length := by
  obtain ⟨cells, layout, records⟩ := shows.laidOut
  rw [layout.size, ← records, List.length_map]

theorem pace (shows : cache.Shows timeline) : cache.pace = timeline.pace :=
  congrArg Frame.pace shows.frame

theorem core (shows : cache.Shows timeline) : cache.core = timeline.core :=
  congrArg Frame.core shows.frame

theorem limit (shows : cache.Shows timeline) : cache.limit = timeline.limit :=
  congrArg Frame.limit shows.frame

theorem tally (shows : cache.Shows timeline) (event : Counters → Counters) :
    (cache.tally event).Shows (timeline.tally event) where
  laidOut := by
    obtain ⟨cells, layout, records⟩ := shows.laidOut
    exact ⟨cells, layout.tally event, records⟩
  frame := by
    have same := shows.frame
    calc
      _ = { cache.frame with core := event cache.frame.core } := rfl
      _ = _ := by rw [same]; rfl

theorem clear (shows : cache.Shows timeline) : cache.clear.Shows timeline.clear where
  laidOut := by
    obtain ⟨cells, layout, _⟩ := shows.laidOut
    exact ⟨[], Layout.cleared layout.housed.positive, rfl⟩
  frame := by
    have same := shows.frame
    calc
      _ = { cache.frame with pace := cache.frame.pace.restart, walked := 0 } := rfl
      _ = _ := by rw [same]; rfl

/-- A new entry, before any other has to give way. -/
theorem add [Hashable κ] (shows : cache.Shows timeline) (key : κ) (value : ν) :
    ∃ added slot cells, cache.add (HashCode.shifted key) key value = .ok added ∧
      Layout added
        ((slot, ⟨HashCode.shifted key, key, value, timeline.pace.advance.tick⟩) :: cells) ∧
      cells.map Prod.snd = timeline.records ∧
      added.limit = timeline.limit ∧ added.size = timeline.records.length + 1 ∧
      added.frame = { timeline.frame with
        pace := timeline.pace.advance, core := timeline.core.countInsertion } := by
  obtain ⟨cells, layout, records⟩ := shows.laidOut
  obtain ⟨added, slot, step, addedLayout, frame⟩ := layout.add (HashCode.shifted key) key value
  rw [shows.pace] at addedLayout
  rw [shows.frame, shows.pace, shows.core] at frame
  refine ⟨added, slot, cells, step, addedLayout, records, congrArg Frame.limit frame, ?_, frame⟩
  rw [addedLayout.size, ← records, List.length_map, List.length_cons]

/-! ## Lookups -/

variable [BEq κ]

/-- A lookup tells whether the timeline has a record for the key, and where its cell is. -/
theorem find_cases (shows : cache.Shows timeline) (hash : UInt32) (key : κ) :
    (cache.find hash key = .ok none ∧ ∀ record ∈ timeline.records, ¬ record.holds hash key) ∨
    ∃ before index record after, cache.find hash key = .ok (some index) ∧
      Layout cache (before ++ (index, record) :: after) ∧
      timeline.records = before.map Prod.snd ++ record :: after.map Prod.snd ∧
      record.holds hash key := by
  obtain ⟨cells, layout, records⟩ := shows.laidOut
  rcases layout.find_cases hash key with ⟨missed, absent⟩ |
    ⟨before, index, record, after, found, rfl, holds⟩
  · exact .inl ⟨missed, records ▸ absent⟩
  · refine .inr ⟨before, index, record, after, found, layout, ?_, holds⟩
    rw [← records, List.map_append, List.map_cons]

variable [Hashable κ]

/-- A request to the cache succeeds as a step of the timeline. -/
def Realizes (cache : RoundCache κ ν) (timeline : Timeline κ ν) (request : CacheRequest κ ν) :
    Prop :=
  ∃ served next outcome, cache.serve request = .ok (served, outcome) ∧
    timeline.Step request next outcome ∧ served.Shows next

theorem get (shows : cache.Shows timeline) (key : κ) : Realizes cache timeline (.get key) := by
  rcases shows.find_cases (HashCode.shifted key) key with ⟨missed, absent⟩ |
    ⟨before, index, record, after, found, layout, split, holds⟩
  · refine ⟨_, _, _, ?_, .miss absent, shows.tally Counters.countMiss⟩
    simp [RoundCache.serve, RoundCache.get, missed]
  · obtain ⟨visited, step, visitedLayout, frame⟩ := layout.visit
    obtain ⟨node, holds', isRecord⟩ := visitedLayout.node_of_mem List.mem_cons_self
    have value : node.item.value = record.value := congrArg Record.value isRecord
    have showsVisited : visited.Shows
        (timeline.visit record (before.map Prod.snd ++ after.map Prod.snd)) := by
      refine ⟨⟨_, visitedLayout, ?_⟩, ?_⟩
      · rw [List.map_cons, List.map_append, shows.pace]
        rfl
      · rw [frame, shows.frame, shows.pace]
        rfl
    refine ⟨_, _, _, ?_, .hit split holds, showsVisited.tally Counters.countHit⟩
    simp [RoundCache.serve, RoundCache.get, found, step, Slab.fetch_eq_ok_iff.2 holds', value]

theorem contains (shows : cache.Shows timeline) (key : κ) :
    Realizes cache timeline (.contains key) := by
  refine ⟨cache, timeline, _, ?_, .contains, shows⟩
  rcases shows.find_cases (HashCode.shifted key) key with ⟨missed, absent⟩ |
    ⟨before, index, record, after, found, layout, split, holds⟩
  · have none : timeline.records.any (·.holds (HashCode.shifted key) key) = false :=
      List.any_eq_false.2 absent
    simp [RoundCache.serve, RoundCache.contains, missed, none]
  · have some : timeline.records.any (·.holds (HashCode.shifted key) key) = true :=
      List.any_eq_true.2 ⟨record, by simp [split], holds⟩
    simp [RoundCache.serve, RoundCache.contains, found, some]

/-! ## Changes -/

theorem remove (shows : cache.Shows timeline) (key : κ) :
    Realizes cache timeline (.remove key) := by
  rcases shows.find_cases (HashCode.shifted key) key with ⟨missed, absent⟩ |
    ⟨before, index, record, after, found, layout, split, holds⟩
  · refine ⟨_, _, _, ?_, .keep absent, shows⟩
    simp [RoundCache.serve, RoundCache.remove, missed]
  · obtain ⟨result, step, layoutAfter, frame⟩ := layout.remove found
    refine ⟨result, _, _, ?_, .remove split holds, ⟨_, layoutAfter, List.map_append⟩, ?_⟩
    · simp [RoundCache.serve, step]
    · rw [frame, shows.frame, shows.core]
      rfl

theorem overwrite (shows : cache.Shows timeline) {before after : List (Cell κ ν)} {index : Nat}
    {record : Record κ ν} {key : κ} (value : ν)
    (found : cache.find (HashCode.shifted key) key = .ok (some index))
    (layout : Layout cache (before ++ (index, record) :: after))
    (split : timeline.records = before.map Prod.snd ++ record :: after.map Prod.snd)
    (holds : record.holds (HashCode.shifted key) key) :
    Realizes cache timeline (.put key value) := by
  obtain ⟨result, step, layoutAfter, frame⟩ := layout.overwrite value
  refine ⟨result, _, _, ?_, .overwrite split holds, ⟨_, layoutAfter, ?_⟩, ?_⟩
  · simp [RoundCache.serve, RoundCache.put, found, step, PutResult.evictedKeys]
  · rw [List.map_cons, List.map_append, shows.pace]
    rfl
  · rw [frame, shows.frame, shows.pace, shows.core]
    rfl

theorem put_room (shows : cache.Shows timeline) {key : κ} (value : ν)
    (missed : cache.find (HashCode.shifted key) key = .ok none)
    (absent : ∀ record ∈ timeline.records, ¬ record.holds (HashCode.shifted key) key)
    (room : timeline.records.length < timeline.limit) :
    Realizes cache timeline (.put key value) := by
  obtain ⟨added, slot, cells, step, layout, records, limit, size, frame⟩ := shows.add key value
  have isWithin : ¬ added.limit < added.size := by
    rw [limit, size]
    omega
  refine ⟨added, _, _, ?_, .add absent room, ⟨_, layout, ?_⟩, frame⟩
  · simp [RoundCache.serve, RoundCache.put, missed, step, isWithin, PutResult.evictedKeys]
  · rw [List.map_cons, records]
    rfl

omit [BEq κ] in
/-- A new entry in a full cache leaves one at the tail that is old enough to give way. -/
theorem add_full (shows : cache.Shows timeline) (timely : timeline.Timely start base) (key : κ)
    (value : ν) (full : timeline.limit ≤ timeline.records.length) :
    ∃ added slot before last oldest, cache.add (HashCode.shifted key) key value = .ok added ∧
      Layout added (((slot, ⟨HashCode.shifted key, key, value, timeline.pace.advance.tick⟩) ::
        before) ++ [(last, oldest)]) ∧
      timeline.records = before.map Prod.snd ++ [oldest] ∧
      oldest.time ≤ added.list.headers.last ∧ added.limit < added.size ∧
      added.frame = { timeline.frame with
        pace := timeline.pace.advance, core := timeline.core.countInsertion } := by
  obtain ⟨added, slot, cells, step, layout, records, limit, size, frame⟩ := shows.add key value
  have notEmpty : cells ≠ [] := by
    rintro rfl
    have large := timely.large
    rw [← records, List.map_nil, List.length_nil] at full
    omega
  obtain ⟨before, ⟨last, oldest⟩, rfl⟩ := (List.eq_nil_or_concat' cells).resolve_left notEmpty
  have split : timeline.records = before.map Prod.snd ++ [oldest] := by
    rw [← records, List.map_append, List.map_singleton]
  have headers : added.list.headers = timeline.pace.advance.headers :=
    congrArg (fun frame => frame.pace.headers) frame
  have due := timely.due split full
  rw [← headers] at due
  refine ⟨added, slot, before, last, oldest, step, layout, split, due, ?_, frame⟩
  rw [limit, size]
  omega

/-- The entry at the tail gives way to a new one. -/
theorem put_full (shows : cache.Shows timeline) (timely : timeline.Timely start base) {key : κ}
    (value : ν) (missed : cache.find (HashCode.shifted key) key = .ok none)
    (absent : ∀ record ∈ timeline.records, ¬ record.holds (HashCode.shifted key) key)
    (full : timeline.limit ≤ timeline.records.length) :
    Realizes cache timeline (.put key value) := by
  obtain ⟨added, slot, before, last, oldest, step, layout, split, due, isOver, frame⟩ :=
    shows.add_full timely key value full
  obtain ⟨result, entry, evictStep, sameKey, layoutAfter, evictFrame⟩ := layout.evict due
  have core : added.core = timeline.core.countInsertion := congrArg Frame.core frame
  refine ⟨result, _, _, ?_, .exchange absent split full, ⟨_, layoutAfter, rfl⟩, ?_⟩
  · simp [RoundCache.serve, RoundCache.put, missed, step, isOver, evictStep,
      PutResult.evictedKeys, sameKey]
  · rw [evictFrame, frame, core]
    rfl

theorem put (shows : cache.Shows timeline) (timely : timeline.Timely start base) (key : κ)
    (value : ν) : Realizes cache timeline (.put key value) := by
  rcases shows.find_cases (HashCode.shifted key) key with ⟨missed, absent⟩ |
    ⟨before, index, record, after, found, layout, split, holds⟩
  · by_cases full : timeline.limit ≤ timeline.records.length
    · exact shows.put_full timely value missed absent full
    · exact shows.put_room value missed absent (Nat.lt_of_not_le full)
  · exact shows.overwrite value found layout split holds

/-! ## Requests -/

/-- Every request to a cache that shows a timely timeline succeeds as a step of the timeline. -/
theorem serve (shows : cache.Shows timeline) (timely : timeline.Timely start base)
    (request : CacheRequest κ ν) : Realizes cache timeline request := by
  cases request with
  | get key => exact shows.get key
  | put key value => exact shows.put timely key value
  | remove key => exact shows.remove key
  | contains key => exact shows.contains key
  | size => exact ⟨cache, timeline, _, by rw [RoundCache.serve, shows.size]; rfl, .size, shows⟩
  | clear => exact ⟨cache.clear, timeline.clear, _, rfl, .clear, shows.clear⟩

end Shows

end RoundCache

end BoundedCache
