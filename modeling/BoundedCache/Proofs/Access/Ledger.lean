import BoundedCache.Proofs.Ledger

/-!
# The ledger of an access map

An access map counts in its index what its handle list then does. Since both are in step, each
operation counts what it answers, and a put that finds the map full counts the entry it drops.
-/

namespace BoundedCache

variable {κ ν : Type} [BEq κ]

/-! ## Lengths -/

omit [BEq κ] in
theorem Recency.length_makeRoom {entries : List (κ × ν)} (capacity : Nat)
    (bounded : entries.length ≤ capacity)
    (positive : 0 < capacity) :
    entries.length = (makeRoom capacity entries).length +
      if entries.length < capacity then 0 else 1 := by
  rw [makeRoom]
  split
  · rfl
  · rw [List.length_dropLast]
    omega

namespace AccessMap

variable [Hashable κ]

def books : Bookkeeping κ ν (AccessMap κ ν) (AccessRequest κ ν) (AccessAnswer κ ν)
    AccessCounters where
  serve := AccessMap.respond
  asked := id
  told := id
  size := AccessMap.size
  counters := AccessMap.counters
  core := AccessCounters.core

/-- The map shows some list. -/
def Intact (map : AccessMap κ ν) : Prop :=
  ∃ entries, map.Shows entries

variable {map served : AccessMap κ ν} {entries : List (κ × ν)} {answer : AccessAnswer κ ν}

/-- Requests that only look, and clearing, change no counter. -/
theorem counters_of_uncounted {request : AccessRequest κ ν} (uncounted : request.isUncounted)
    (step : map.respond request = .ok (served, answer)) : served.counters = map.counters := by
  cases request with
  | cached request =>
      cases request with
      | get | put | remove => contradiction
      | contains | size | clear =>
          cases step
          rfl
  | exchange | popOldest => contradiction
  | peek =>
      cases step
      rfl
  | oldest =>
      cases found : map.oldest? <;> rw [respond, found] at step <;> cases step
      rfl
  | list =>
      cases found : map.toList <;> rw [respond, found] at step <;> cases step
      rfl

/-- What a request adds to the counters, and the entries that come and go with it. -/
def Counts (map : AccessMap κ ν) (entries : List (κ × ν)) (request : AccessRequest κ ν)
    (served : AccessMap κ ν) : Prop :=
  ∃ evicted, served.counters.core = map.counters.core +
      (⟨request, Recency.reply entries request, entries.length⟩ : Transaction κ ν).counted +
      { evictions := evicted } ∧
    Transaction.Balances ⟨request, Recency.reply entries request, entries.length⟩
      (Recency.after map.capacity.val entries request).length evicted

namespace Shows

theorem popOldest_counts (step : map.respond .popOldest = .ok (served, answer)) :
    map.Counts entries .popOldest served := by
  refine ⟨0, ?_, ?_⟩
  · cases popped : map.entries.popBack with
    | error fault =>
        simp only [AccessMap.respond, AccessMap.popOldest, popped] at step
        contradiction
    | ok outcome =>
        obtain ⟨others, removed⟩ := outcome
        simp only [AccessMap.respond, AccessMap.popOldest, popped, ok_bind] at step
        cases removed <;> cases step <;> rfl
  · rw [Recency.reply, Transaction.balances_popOldest, Recency.after]
    rcases List.eq_nil_or_concat' entries with rfl | ⟨others, entry, rfl⟩
    · rfl
    · simp

variable [EquivBEq κ]

/-- A lookup counts a hit for a key that is held and a miss for another. -/
theorem use_counts (shows : map.Shows entries) {key : κ} {found : Option Nat}
    (step : map.use key = .ok (served, found)) :
    served.counters.core =
      map.counters.core + .ofLookup ((Recency.lookup entries key).map Prod.snd) := by
  rcases shows.find_cases key with ⟨noHandle, missed, _⟩ |
    ⟨before, handle, entry, after, isHandle, isFound, _, _, _, holds, _⟩
  · rw [use, noHandle] at step
    cases step
    rw [missed]
    rfl
  · obtain ⟨nodes, moved, _⟩ := holds.bringToFront
    simp only [use, isHandle, moved, ok_bind] at step
    cases step
    rw [isFound]
    rfl

theorem get_counts (shows : map.Shows entries) {key : κ}
    (step : map.respond (.cached (.get key)) = .ok (served, answer)) :
    map.Counts entries (.cached (.get key)) served := by
  cases used : map.use key with
  | error fault =>
      simp only [AccessMap.respond, AccessMap.serve, AccessMap.get, used] at step
      contradiction
  | ok outcome =>
      simp only [AccessMap.respond, AccessMap.serve, AccessMap.get, used, ok_bind,
        pure_eq_ok] at step
      cases step
      refine ⟨0, ?_, ?_⟩
      · rw [Recency.reply, Recency.answer, Transaction.counted_get]
        exact shows.use_counts used
      · rw [Recency.reply, Recency.answer, Transaction.balances_get, Recency.after, Recency.next,
          shows.distinct.length_without key, List.length_append, Nat.add_comm, Nat.add_zero]

theorem exchange_counts (shows : map.Shows entries) {key : κ} {value : ν}
    (step : map.respond (.exchange key value) = .ok (served, answer)) :
    map.Counts entries (.exchange key value) served := by
  have balance : Transaction.Balances
      ⟨.exchange key value, Recency.reply entries (.exchange key value), entries.length⟩
      (Recency.after map.capacity.val entries (.exchange key value)).length 0 := by
    rw [Recency.reply, Transaction.balances_exchange, Recency.after,
      shows.distinct.length_without key, List.length_append, Nat.add_comm]
    cases Recency.lookup entries key <;> rfl
  refine ⟨0, ?_, balance⟩
  rw [Recency.reply, Transaction.counted_exchange]
  cases used : map.use key with
  | error fault =>
      simp only [AccessMap.respond, AccessMap.exchange, used] at step
      contradiction
  | ok outcome =>
      obtain ⟨usedMap, found⟩ := outcome
      have counts := shows.use_counts used
      simp only [AccessMap.respond, AccessMap.exchange, used, ok_bind] at step
      cases found with
      | none =>
          cases step
          exact counts
      | some handle =>
          cases stored : usedMap.entries.get? handle <;> simp only [stored] at step <;> cases step
          · exact counts
          · exact counts

theorem remove_counts (shows : map.Shows entries) {key : κ}
    (step : map.respond (.cached (.remove key)) = .ok (served, answer)) :
    map.Counts entries (.cached (.remove key)) served := by
  have lengths := shows.distinct.length_without key
  refine ⟨0, ?_, ?_⟩
  · rw [Recency.reply, Recency.answer, Transaction.counted_remove]
    rcases shows.find_cases key with ⟨noHandle, missed, _⟩ |
      ⟨before, handle, entry, after, isHandle, found, _, _, _, holds, _⟩
    · simp only [AccessMap.respond, AccessMap.serve, AccessMap.remove, noHandle, ok_bind,
        pure_eq_ok] at step
      cases step
      rw [missed]
      rfl
    · obtain ⟨nodes, removed, _⟩ := holds.remove
      simp only [AccessMap.respond, AccessMap.serve, AccessMap.remove, isHandle, removed, ok_bind,
        pure_eq_ok] at step
      cases step
      rw [found]
      rfl
  · rw [Recency.reply, Recency.answer, Transaction.balances_remove, Recency.after, Recency.next]
    cases found : Recency.lookup entries key <;> rw [found] at lengths <;> exact lengths

variable [LawfulHashable κ]

theorem put_counts (shows : map.Shows entries) {key : κ} {value : ν}
    (step : map.respond (.cached (.put key value)) = .ok (served, answer)) :
    map.Counts entries (.cached (.put key value)) served := by
  rcases shows.find_cases key with ⟨noHandle, missed, absent⟩ |
    ⟨before, handle, entry, after, isHandle, found, _, _, _, holds, _⟩
  · obtain ⟨roomy, made, showsRoomy, sameCapacity, roomCounts⟩ := shows.makeRoom
    have room : (Recency.makeRoom map.capacity.val entries).length < roomy.capacity.val := by
      rw [sameCapacity]
      exact Recency.length_makeRoom_lt map.capacity.pos shows.length_le
    have fewer := Recency.makeRoom_sublist map.capacity.val entries
    obtain ⟨grown, added, _, _, growCounts⟩ :=
      showsRoomy.add room (fun other member => absent other (fewer.subset member)) value
    simp only [AccessMap.respond, AccessMap.serve, AccessMap.put, noHandle, made, added, ok_bind,
      pure_eq_ok] at step
    cases step
    refine ⟨if entries.length < map.capacity.val then 0 else 1, ?_, ?_⟩
    · rw [Recency.reply, Recency.answer, missed, Transaction.counted_put, growCounts]
      dsimp only
      rw [roomCounts]
      exact add_right_comm map.counters.core { evictions := _ } (.ofPut (none : Option ν))
    · have lengths := Recency.length_makeRoom _ shows.length_le map.capacity.pos
      rw [Recency.reply, Recency.answer, missed, Transaction.balances_put, Recency.after,
        Recency.next, missed]
      simp only [Option.map_none, Option.isSome_none, Bool.false_eq_true, if_false,
        List.length_cons]
      omega
  · obtain ⟨nodes, moved, _⟩ := holds.bringToFront
    have lengths := shows.distinct.length_without key
    simp only [AccessMap.respond, AccessMap.serve, AccessMap.put, isHandle, moved, ok_bind,
      pure_eq_ok] at step
    cases step
    refine ⟨0, ?_, ?_⟩
    · rw [Recency.reply, Recency.answer, found, Transaction.counted_put]
      rfl
    · rw [found] at lengths
      rw [Recency.reply, Recency.answer, found, Transaction.balances_put, Recency.after,
        Recency.next, found]
      exact lengths

theorem counts (shows : map.Shows entries) (request : AccessRequest κ ν)
    (step : map.respond request = .ok (served, answer)) : map.Counts entries request served := by
  cases request with
  | cached request =>
      cases request with
      | get key => exact shows.get_counts step
      | put key value => exact shows.put_counts step
      | remove key => exact shows.remove_counts step
      | contains key =>
          cases step
          exact ⟨0, rfl, rfl⟩
      | size =>
          cases step
          exact ⟨0, rfl, rfl⟩
      | clear =>
          cases step
          exact ⟨0, rfl, Transaction.balances_clear _⟩
  | exchange key value => exact shows.exchange_counts step
  | popOldest => exact popOldest_counts step
  | peek key => exact ⟨0, by rw [counters_of_uncounted rfl step]; rfl, rfl⟩
  | oldest => exact ⟨0, by rw [counters_of_uncounted rfl step]; rfl, rfl⟩
  | list => exact ⟨0, by rw [counters_of_uncounted rfl step]; rfl, rfl⟩

end Shows

theorem Intact.accounted [EquivBEq κ] [LawfulHashable κ] (intact : map.Intact)
    (request : AccessRequest κ ν) :
    ∃ served answer, books.Accounted Intact map request served answer := by
  obtain ⟨entries, shows⟩ := intact
  obtain ⟨served, step, showsNext, _⟩ := shows.respond request
  obtain ⟨evicted, counts, balance⟩ := shows.counts request step
  refine ⟨served, _, step, ⟨_, showsNext⟩, ?_, fun uncounted =>
    counters_of_uncounted uncounted step⟩
  rw [← shows.size, ← showsNext.size] at balance
  rw [← shows.size] at counts
  exact Accounts.of_counted evicted counts balance

theorem intact_empty (capacity : Capacity) : (empty capacity : AccessMap κ ν).Intact :=
  ⟨[], shows_empty capacity⟩

theorem exact_empty [EquivBEq κ] [LawfulHashable κ] (capacity : Capacity) :
    books.Exact (empty capacity : AccessMap κ ν) := by
  have shows : (empty capacity : AccessMap κ ν).Shows [] := shows_empty capacity
  exact books.exact_of_accounted (fun request kept => Intact.accounted kept request)
    (intact_empty capacity) rfl shows.size

end AccessMap

end BoundedCache
