import BoundedCache.Proofs.Round.LastUse
import BoundedCache.Proofs.Round.Safety
import BoundedCache.Proofs.Slots
import BoundedCache.Proofs.Storage

/-!
# The slots of a round cache

A round cache makes a slot only for a new entry that finds all slots filled. Visits, victim
searches and removals relink nodes and empty slots. A put evicts after it has stored its entry, so
a full cache needs one slot more than its limit for a while, and no more than that at any time.
-/

namespace BoundedCache

open Round

/-! ## Lists -/

namespace Round.RoundList

variable {α : Type} {list after : RoundList α} {index : Nat}

theorem eq_ok_of_toChecked {β : Type} {attempt : Attempt α β} {result : β}
    (succeeds : attempt.toChecked = .ok result) : attempt = .ok result := by
  cases attempt with
  | error fault => contradiction
  | ok value => exact congrArg Except.ok (Except.ok.inj succeeds)

theorem alike_of_modify {change : Node α → Node α} (step : list.modify index change = .ok after) :
    list.nodes.Alike after.nodes := by
  rw [modify] at step
  cases holds : list.nodes.get? index with
  | none =>
      rw [holds] at step
      contradiction
  | some node =>
      rw [holds] at step
      cases step
      exact Slab.agree_write holds rfl

theorem alike_of_setNext {next place : Option Nat} (step : list.setNext next place = .ok after) :
    list.nodes.Alike after.nodes := by
  cases place with
  | none =>
      cases step
      exact .refl list.nodes
  | some index => exact alike_of_modify step

theorem alike_of_setPrev {prev place : Option Nat} (step : list.setPrev prev place = .ok after) :
    list.nodes.Alike after.nodes := by
  cases place with
  | none =>
      cases step
      exact .refl list.nodes
  | some index => exact alike_of_modify step

theorem alike_of_join {left right : Option Nat} (step : list.join left right = .ok after) :
    list.nodes.Alike after.nodes := by
  obtain ⟨middle, first, second⟩ := exists_of_bind_eq_ok step
  exact (alike_of_setNext first).trans (alike_of_setPrev second)

theorem alike_of_link (step : list.link index = .ok after) : list.nodes.Alike after.nodes := by
  obtain ⟨marked, first, step⟩ := exists_of_bind_eq_ok step
  obtain ⟨followed, second, third⟩ := exists_of_bind_eq_ok step
  exact ((alike_of_modify first).trans (alike_of_setPrev second)).trans (alike_of_setNext third)

theorem alike_of_unlink (step : list.unlink index = .ok after) :
    list.nodes.Alike after.nodes := by
  obtain ⟨node, _, step⟩ := exists_of_bind_eq_ok step
  split at step
  · cases step
    exact .refl list.nodes
  · obtain ⟨joined, first, second⟩ := exists_of_bind_eq_ok step
    exact (alike_of_join first).trans (alike_of_modify second)

theorem alike_of_bringToHead (step : list.bringToHead index = .ok after) :
    list.nodes.Alike after.nodes := by
  rw [bringToHead] at step
  split at step
  · cases step
    exact .refl list.nodes
  · obtain ⟨unlinked, first, second⟩ := exists_of_bind_eq_ok step
    exact (alike_of_unlink first).trans (alike_of_link second)

/-! ### Victims -/

theorem alike_of_extractVictim (step : list.extractVictim index = .ok after) :
    list.nodes.Alike after.nodes := by
  obtain ⟨node, _, step⟩ := exists_of_bind_eq_ok step
  obtain ⟨unlinked, unlinks, step⟩ := exists_of_bind_eq_ok step
  have alone := alike_of_unlink unlinks
  dsimp only at step
  split at step
  · obtain ⟨passed, _, step⟩ := exists_of_bind_eq_ok step
    split at step
    · obtain ⟨cut, first, step⟩ := exists_of_bind_eq_ok step
      obtain ⟨moved, second, third⟩ := exists_of_bind_eq_ok step
      exact alone.trans (((alike_of_join first).trans (alike_of_join second)).trans
        (alike_of_join third))
    · cases step
      exact alone
  · cases step
    exact alone

theorem nodes_pass (list : RoundList α) (patience lastVisit : Nat) :
    (list.pass patience lastVisit).nodes = list.nodes := by
  rw [pass]
  dsimp only
  split <;> rfl

theorem alike_of_searchFrom {patience : Nat} (fuel : Nat) :
    ∀ {list : RoundList α} {place found : Option Nat},
      searchFrom patience fuel list place = .ok (after, found) → list.nodes.Alike after.nodes := by
  induction fuel with
  | zero =>
      intro list place found step
      cases step
      exact .refl _
  | succ fuel inductionHypothesis =>
      intro list place found step
      cases place with
      | none =>
          cases step
          exact .refl _
      | some index =>
          obtain ⟨node, _, step⟩ := exists_of_bind_eq_ok step
          split at step
          · obtain ⟨extracted, extracts, step⟩ := exists_of_bind_eq_ok step
            cases step
            exact alike_of_extractVictim extracts
          · exact nodes_pass list patience node.lastVisit ▸ inductionHypothesis step

theorem size_slots_discard (list : RoundList α) (index : Nat) :
    (list.discard index).1.nodes.slots.size = list.nodes.slots.size :=
  Slab.size_slots_erase list.nodes index

end Round.RoundList

/-! ## Caches -/

namespace RoundCache

variable {κ ν : Type} {cache after : RoundCache κ ν} {index : Nat}

theorem nodes_advanceClock (cache : RoundCache κ ν) :
    cache.advanceClock.list.nodes = cache.list.nodes := by
  rw [advanceClock]
  split <;> rfl

theorem alike_of_visit (step : cache.visit index = .ok after) :
    cache.list.nodes.Alike after.list.nodes := by
  obtain ⟨timed, sets, step⟩ := exists_of_bind_eq_ok step
  obtain ⟨moved, moves, step⟩ := exists_of_bind_eq_ok step
  cases step
  have first := RoundList.alike_of_modify (RoundList.eq_ok_of_toChecked sets)
  rw [nodes_advanceClock] at first
  exact first.trans (RoundList.alike_of_bringToHead (RoundList.eq_ok_of_toChecked moves))

theorem alike_of_linkBucket (step : cache.linkBucket index = .ok after) :
    cache.list.nodes.Alike after.list.nodes := by
  obtain ⟨node, _, step⟩ := exists_of_bind_eq_ok step
  obtain ⟨first, _, step⟩ := exists_of_bind_eq_ok step
  obtain ⟨nodes, pushed, step⟩ := exists_of_bind_eq_ok step
  cases step
  exact ChainField.alike_of_pushFront pushed

theorem alike_of_unlinkBucket (step : cache.unlinkBucket index = .ok after) :
    cache.list.nodes.Alike after.list.nodes := by
  obtain ⟨node, _, step⟩ := exists_of_bind_eq_ok step
  obtain ⟨nodes, joined, step⟩ := exists_of_bind_eq_ok step
  have alike := ChainField.alike_of_join joined
  dsimp only at step
  split at step
  · cases step
    exact alike
  · cases step
    exact alike

theorem alike_of_overwrite {value old : ν} (step : cache.overwrite index value = .ok (after, old)) :
    cache.list.nodes.Alike after.list.nodes := by
  obtain ⟨visited, visits, step⟩ := exists_of_bind_eq_ok step
  obtain ⟨node, _, step⟩ := exists_of_bind_eq_ok step
  obtain ⟨nodes, modified, step⟩ := exists_of_bind_eq_ok step
  cases step
  exact (alike_of_visit visits).trans (Slab.alike_of_modify modified)

/-- A new entry fills a free slot or, without one, a new slot. -/
theorem size_slots_of_add (wellFormed : cache.list.nodes.WellFormed) {hash : UInt32} {key : κ}
    {value : ν} (step : cache.add hash key value = .ok after) :
    after.list.nodes.slots.size =
      max cache.list.nodes.slots.size (cache.list.nodes.occupied + 1) := by
  rw [← nodes_advanceClock cache] at wellFormed ⊢
  obtain ⟨housed, first, step⟩ := exists_of_bind_eq_ok step
  obtain ⟨linked, second, step⟩ := exists_of_bind_eq_ok step
  cases step
  have alike := (alike_of_linkBucket first).trans
    (RoundList.alike_of_link (RoundList.eq_ok_of_toChecked second))
  exact alike.size.trans (wellFormed.size_insert _)

theorem size_slots_of_evict {eviction : Option (Eviction κ ν)}
    (step : cache.evict = .ok (after, eviction)) :
    after.list.nodes.slots.size = cache.list.nodes.slots.size := by
  obtain ⟨⟨searched, victim⟩, searches, step⟩ := exists_of_bind_eq_ok step
  have first := RoundList.alike_of_searchFrom _ (RoundList.eq_ok_of_toChecked searches)
  cases victim with
  | none =>
      cases step
      exact first.size
  | some index =>
      obtain ⟨unhoused, unlinks, step⟩ := exists_of_bind_eq_ok step
      cases step
      exact (RoundList.size_slots_discard _ _).trans
        (first.trans (alike_of_unlinkBucket unlinks)).size

variable [BEq κ] [Hashable κ] {key : κ}

theorem size_slots_of_get {value : Option ν} (step : cache.get key = .ok (after, value)) :
    after.list.nodes.slots.size = cache.list.nodes.slots.size := by
  obtain ⟨found, _, step⟩ := exists_of_bind_eq_ok step
  cases found with
  | none =>
      cases step
      rfl
  | some index =>
      obtain ⟨visited, visits, step⟩ := exists_of_bind_eq_ok step
      obtain ⟨node, _, step⟩ := exists_of_bind_eq_ok step
      cases step
      exact (alike_of_visit visits).size

theorem size_slots_of_remove {value : Option ν} (step : cache.remove key = .ok (after, value)) :
    after.list.nodes.slots.size = cache.list.nodes.slots.size := by
  obtain ⟨found, _, step⟩ := exists_of_bind_eq_ok step
  cases found with
  | none =>
      cases step
      rfl
  | some index =>
      obtain ⟨unhoused, first, step⟩ := exists_of_bind_eq_ok step
      obtain ⟨unlinked, second, step⟩ := exists_of_bind_eq_ok step
      cases step
      have alike := (alike_of_unlinkBucket first).trans
        (RoundList.alike_of_unlink (RoundList.eq_ok_of_toChecked second))
      exact (RoundList.size_slots_discard _ _).trans alike.size

/-! ## Storage -/

/-- The state amid a request: that of a put which has added a new key. -/
inductive Amid (cache : RoundCache κ ν) : CacheRequest κ ν → RoundCache κ ν → Prop where
  | put {key : κ} {value : ν} {added : RoundCache κ ν}
      (missed : cache.find (HashCode.shifted key) key = .ok none)
      (adds : cache.add (HashCode.shifted key) key value = .ok added) :
      Amid cache (.put key value) added

/-- A cache keeps nothing but entries in slots. -/
def storage : Storage (RoundCache κ ν) (CacheRequest κ ν) (CacheOutcome κ ν) where
  serve := RoundCache.serve
  Amid := Amid
  clears := CacheRequest.clears
  held := RoundCache.size
  slots cache := cache.list.nodes.slots.size
  reserved := 0

/-- The cache shows a timely timeline with this limit. -/
def Stocks (limit : Nat) (cache : RoundCache κ ν) : Prop :=
  ∃ timeline start base, cache.Shows timeline ∧ timeline.Timely start base ∧
    timeline.limit = limit

variable {timeline : Timeline κ ν} {limit : Nat} {request : CacheRequest κ ν} {value : ν}

namespace Shows

omit [BEq κ] [Hashable κ] in
theorem wellFormed (shows : cache.Shows timeline) : cache.list.nodes.WellFormed := by
  obtain ⟨cells, layout, _⟩ := shows.laidOut
  exact layout.wellFormed

omit [BEq κ] [Hashable κ] in
theorem occupied (shows : cache.Shows timeline) : cache.list.nodes.occupied = cache.size := by
  obtain ⟨cells, layout, _⟩ := shows.laidOut
  rw [layout.occupied, layout.size]

theorem room (shows : cache.Shows timeline) :
    storage.needs cache ≤ storage.slots cache :=
  (Nat.zero_add cache.size).trans_le (shows.occupied ▸ shows.wellFormed.occupied_le)

/-- Amid a put there is one entry more, and slots are made for the entries that there are then. -/
theorem size_slots_add (shows : cache.Shows timeline) {added : RoundCache κ ν}
    (adds : cache.add (HashCode.shifted key) key value = .ok added) :
    added.size = timeline.records.length + 1 ∧
      storage.slots added =
        max (storage.slots cache) (storage.needs added) := by
  obtain ⟨same, slot, cells, step, layout, _, _, size, _⟩ := shows.add key value
  cases adds.symm.trans step
  refine ⟨size, (size_slots_of_add shows.wellFormed adds).trans ?_⟩
  simp only [storage, Storage.needs]
  rw [shows.occupied, size, shows.size, Nat.zero_add]

theorem grows_of_put (shows : cache.Shows timeline) {next : Timeline κ ν}
    (showsAfter : after.Shows next) {result : PutResult κ ν}
    (step : cache.put key value = .ok (after, result)) :
    storage.Grows (storage.During cache (.put key value) after) cache after := by
  obtain ⟨found, finds, step⟩ := exists_of_bind_eq_ok step
  cases found with
  | some index =>
      obtain ⟨⟨written, previous⟩, overwrites, step⟩ := exists_of_bind_eq_ok step
      cases step
      refine .of_same shows.room showsAfter.room (alike_of_overwrite overwrites).size ?_
      rintro passed ⟨missed, _⟩
      cases finds.symm.trans missed
  | none =>
      obtain ⟨added, adds, step⟩ := exists_of_bind_eq_ok step
      obtain ⟨_, slots⟩ := shows.size_slots_add adds
      have same : storage.slots after = storage.slots added := by
        split at step
        · obtain ⟨⟨evicted, eviction⟩, evicts, step⟩ := exists_of_bind_eq_ok step
          cases step
          exact size_slots_of_evict evicts
        · cases step
          rfl
      -- What is evicted goes after the new entry has got its slot.
      refine .of_highest (.inl (.put finds adds)) shows.room showsAfter.room ?_
        (same.trans slots)
      rintro passed ⟨_, addsToo⟩
      cases adds.symm.trans addsToo
      exact ⟨slots ▸ Nat.le_max_right _ _, Nat.le_of_eq same.symm⟩

end Shows

/-- Every request either clears the slots of a cache or grows them. -/
theorem reuses : (storage : Storage (RoundCache κ ν) _ _).Reuses (Stocks limit) where
  room := by
    rintro cache ⟨timeline, start, base, shows, _⟩
    exact shows.room
  serves := by
    rintro cache request ⟨timeline, start, base, shows, timely, rfl⟩
    obtain ⟨after, next, outcome, served, follows, showsAfter⟩ := shows.serve timely request
    have stocks : after.Stocks timeline.limit :=
      ⟨next, _, _, showsAfter, timely.step follows, follows.limit_eq⟩
    refine ⟨after, outcome, served, stocks, fun clearsNot => ?_, fun clears => ?_⟩
    · cases request with
      | get key =>
          obtain ⟨⟨visited, value⟩, step, ends⟩ := exists_of_bind_eq_ok served
          cases ends
          exact .of_same shows.room showsAfter.room (size_slots_of_get step) nofun
      | put key value =>
          obtain ⟨⟨stored, result⟩, step, ends⟩ := exists_of_bind_eq_ok served
          cases ends
          exact shows.grows_of_put showsAfter step
      | remove key =>
          obtain ⟨⟨rest, value⟩, step, ends⟩ := exists_of_bind_eq_ok served
          cases ends
          exact .of_same shows.room showsAfter.room (size_slots_of_remove step) nofun
      | contains key =>
          obtain ⟨isHeld, _, ends⟩ := exists_of_bind_eq_ok served
          cases ends
          exact .of_same shows.room showsAfter.room rfl nofun
      | size =>
          cases served
          exact .of_same shows.room showsAfter.room rfl nofun
      | clear => contradiction
    · cases request with
      | clear =>
          cases served
          exact ⟨rfl, nofun⟩
      | _ => contradiction

/-- A cache is over its limit by one entry at most, and only amid a put. -/
theorem bounded : (storage : Storage (RoundCache κ ν) _ _).Bounded (Stocks limit) (limit + 1) := by
  rintro cache ⟨timeline, start, base, shows, timely, rfl⟩
  have few := timely.bounded
  refine ⟨?_, ?_⟩
  · rw [← shows.size] at few
    exact (Nat.zero_add cache.size).trans_le (Nat.le_succ_of_le few)
  · rintro request added ⟨_, adds⟩
    obtain ⟨size, _⟩ := shows.size_slots_add adds
    exact (Nat.zero_add added.size).trans_le (size ▸ Nat.succ_le_succ few)

theorem economical_of_ofLimit {fresh : RoundCache κ ν} (built : ofLimit limit = .ok fresh) :
    storage.Economical fresh ∧ storage.Within fresh (limit + 1) := by
  have large : minLimit < limit := by
    by_contra small
    rw [ofLimit, if_pos (Nat.le_of_not_lt small)] at built
    contradiction
  obtain ⟨same, sameBuilt, shows⟩ := shows_of_ofLimit (κ := κ) (ν := ν) large
  cases built.symm.trans sameBuilt
  have stocks : fresh.Stocks limit := ⟨_, _, _, shows, Timeline.timely_empty large, rfl⟩
  rw [ofLimit, if_neg (Nat.not_le_of_lt large)] at built
  cases built
  exact ⟨reuses.economical stocks rfl, reuses.within bounded stocks (Nat.zero_le _)⟩

end RoundCache

end BoundedCache
