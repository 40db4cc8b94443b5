import BoundedCache.Key
import BoundedCache.Proofs.Access.Refinement
import BoundedCache.Proofs.Round.Pacing
import Mathlib.Data.List.Forall2

/-!
# Round caches keep the order of last use

Since its entries stand in the order of their last visits and the one at the tail gives way, a
round cache is a list in the order of last use. It keeps the first spelling of a key, so its keys
are only equal to those of the list. An access map is the same list, and the two answer every
history alike, whatever the hash functions are.
-/

namespace BoundedCache

open Round

variable {κ ν : Type}

/-! ## Records and entries -/

namespace Round

/-- Each record has the hash code of its key. -/
def Named [Hashable κ] (records : List (Record κ ν)) : Prop :=
  ∀ record ∈ records, record.hash = HashCode.shifted record.key

theorem Named.middle [Hashable κ] {before after : List (Record κ ν)} {record : Record κ ν}
    (named : Named (before ++ record :: after)) :
    record.hash = HashCode.shifted record.key ∧ Named (before ++ after) := by
  refine ⟨named record (by simp), fun other member => named other ?_⟩
  simp only [List.mem_append, List.mem_cons] at member ⊢
  tauto

variable [BEq κ]

/-- The records have the keys and values of the entries, in the same order. -/
def Matches (entries : List (κ × ν)) (records : List (Record κ ν)) : Prop :=
  List.Forall₂ (fun entry record => entry.1 == record.key ∧ entry.2 = record.value) entries records

theorem Matches.length_eq {entries : List (κ × ν)} {records : List (Record κ ν)}
    (matching : Matches entries records) : entries.length = records.length :=
  List.Forall₂.length_eq matching

theorem Matches.split {entries : List (κ × ν)} {before after : List (Record κ ν)}
    {record : Record κ ν} (matching : Matches entries (before ++ record :: after)) :
    ∃ first entry last, entries = first ++ entry :: last ∧
      entry.1 == record.key ∧ entry.2 = record.value ∧
      Matches first before ∧ Matches last after := by
  have first := List.forall₂_take_append entries before (record :: after) matching
  have rest := List.forall₂_drop_append entries before (record :: after) matching
  obtain ⟨entry, last, ⟨sameKey, sameValue⟩, lastMatching, split⟩ :=
    List.forall₂_cons_right_iff.1 rest
  refine ⟨_, entry, last, ?_, sameKey, sameValue, first, lastMatching⟩
  rw [← split, List.take_append_drop]

theorem Matches.append {first last : List (κ × ν)} {before after : List (Record κ ν)}
    (front : Matches first before) (behind : Matches last after) :
    Matches (first ++ last) (before ++ after) :=
  List.rel_append front behind

theorem Matches.distinct [PartialEquivBEq κ] {entries : List (κ × ν)} {records : List (Record κ ν)}
    (matching : Matches entries records) (distinct : Recency.Distinct entries) :
    records.Pairwise fun first second => ¬ first.key == second.key := by
  induction matching with
  | nil => exact .nil
  | @cons entry record entries records same matching inductionHypothesis =>
      obtain ⟨apart, rest⟩ := List.pairwise_cons.1 distinct
      refine List.pairwise_cons.2 ⟨fun other member holds => ?_, inductionHypothesis rest⟩
      obtain ⟨before, after, rfl⟩ := List.append_of_mem member
      obtain ⟨_, otherEntry, _, rfl, otherSame, _⟩ := Matches.split matching
      refine apart otherEntry (by simp) (PartialEquivBEq.trans same.1 ?_)
      exact PartialEquivBEq.trans holds (PartialEquivBEq.symm otherSame)

section Named

variable [Hashable κ] [LawfulHashable κ]

theorem Record.holds_iff {record : Record κ ν} {key : κ}
    (named : record.hash = HashCode.shifted record.key) :
    record.holds (HashCode.shifted key) key ↔ record.key == key := by
  rw [Record.holds, Bool.and_eq_true, beq_iff_eq, and_iff_right_iff_imp, named]
  intro same
  rw [HashCode.shifted, HashCode.shifted, HashCode.ofKey, HashCode.ofKey, hash_eq same]

variable [EquivBEq κ]

theorem Matches.absent {entries : List (κ × ν)} {records : List (Record κ ν)} {key : κ}
    (matching : Matches entries records) (named : Named records)
    (absent : ∀ record ∈ records, ¬ record.holds (HashCode.shifted key) key) :
    ∀ entry ∈ entries, ¬ entry.1 == key := by
  induction matching with
  | nil => simp
  | @cons entry record entries records same _ inductionHypothesis =>
      have namedHere := named record List.mem_cons_self
      refine List.forall_mem_cons.2 ⟨fun holds => ?_, ?_⟩
      · refine absent record List.mem_cons_self ((Record.holds_iff namedHere).2 ?_)
        exact PartialEquivBEq.trans (PartialEquivBEq.symm same.1) holds
      · exact inductionHypothesis
          (fun other member => named other (List.mem_cons_of_mem _ member))
          fun other member => absent other (List.mem_cons_of_mem _ member)

theorem Matches.found {entries : List (κ × ν)} {before after : List (Record κ ν)}
    {record : Record κ ν} {key : κ} (matching : Matches entries (before ++ record :: after))
    (distinct : Recency.Distinct entries) (named : Named (before ++ record :: after))
    (holds : record.holds (HashCode.shifted key) key) :
    ∃ entry others, Recency.lookup entries key = some entry ∧
      Recency.without entries key = others ∧ entry.1 == record.key ∧ key == record.key ∧
      entry.2 = record.value ∧ Matches others (before ++ after) := by
  obtain ⟨first, entry, last, rfl, sameKey, sameValue, front, behind⟩ := matching.split
  have isKey := (Record.holds_iff named.middle.1).1 holds
  have entryHolds : entry.1 == key := PartialEquivBEq.trans sameKey isKey
  exact ⟨entry, _, Recency.lookup_middle distinct entryHolds,
    Recency.without_middle distinct entryHolds, sameKey, PartialEquivBEq.symm isKey, sameValue,
    front.append behind⟩

end Named

end Round

/-! ## Steps -/

namespace Round.Timeline

variable [BEq κ] [Hashable κ] {timeline next : Timeline κ ν} {request : CacheRequest κ ν}
  {outcome : CacheOutcome κ ν} {entries : List (κ × ν)}

theorem Step.limit_eq (step : Step timeline request next outcome) :
    next.limit = timeline.limit := by
  cases step <;> rfl

theorem Step.named (step : Step timeline request next outcome) (named : Named timeline.records) :
    Named next.records := by
  cases step with
  | miss => exact named
  | hit split =>
      rw [split] at named
      exact List.forall_mem_cons.2 named.middle
  | overwrite split =>
      rw [split] at named
      exact List.forall_mem_cons.2 named.middle
  | add => exact List.forall_mem_cons.2 ⟨rfl, named⟩
  | exchange absent split =>
      rw [split] at named
      exact List.forall_mem_cons.2 ⟨rfl, fun record member =>
        named record (List.mem_append_left _ member)⟩
  | keep => exact named
  | remove split =>
      rw [split] at named
      exact named.middle.2
  | contains => exact named
  | size => exact named
  | clear => simp [Named, Timeline.clear]

variable [EquivBEq κ] [LawfulHashable κ]

/-- A step answers as the list in the order of last use does, and changes it alike. -/
theorem Step.recency (step : Step timeline request next outcome)
    (matching : Matches entries timeline.records) (distinct : Recency.Distinct entries)
    (named : Named timeline.records) :
    outcome.answer = Recency.answer entries request ∧
      Matches (Recency.next timeline.limit entries request) next.records := by
  have length := matching.length_eq
  cases step with
  | miss absent =>
      have missed := Recency.lookup_eq_none_iff.2 (matching.absent named absent)
      rw [Recency.answer, Recency.next, missed,
        Recency.without_of_absent (matching.absent named absent)]
      exact ⟨rfl, matching⟩
  | hit split holds =>
      rw [split] at matching named
      obtain ⟨entry, others, found, rest, sameKey, _, sameValue, matchingRest⟩ :=
        matching.found distinct named holds
      rw [Recency.answer, Recency.next, found, rest]
      exact ⟨by rw [Option.map_some, sameValue], .cons ⟨sameKey, sameValue⟩ matchingRest⟩
  | overwrite split holds =>
      rw [split] at matching named
      obtain ⟨entry, others, found, rest, _, sameKey, sameValue, matchingRest⟩ :=
        matching.found distinct named holds
      rw [Recency.answer, Recency.next, found]
      simp only [rest]
      exact ⟨by rw [Option.map_some, sameValue], .cons ⟨sameKey, rfl⟩ matchingRest⟩
  | add absent room =>
      have missed := Recency.lookup_eq_none_iff.2 (matching.absent named absent)
      rw [← length] at room
      rw [Recency.answer, Recency.next, missed, Recency.makeRoom, if_pos room]
      exact ⟨rfl, .cons ⟨BEq.refl _, rfl⟩ matching⟩
  | exchange absent split full =>
      have missed := Recency.lookup_eq_none_iff.2 (matching.absent named absent)
      rw [← length] at full
      rw [Recency.answer, Recency.next, missed, Recency.makeRoom, if_neg (Nat.not_lt_of_le full)]
      rw [split] at matching
      obtain ⟨first, entry, last, rfl, _, _, front, behind⟩ := matching.split
      cases behind
      rw [List.dropLast_concat]
      exact ⟨rfl, .cons ⟨BEq.refl _, rfl⟩ front⟩
  | keep absent =>
      have missed := Recency.lookup_eq_none_iff.2 (matching.absent named absent)
      rw [Recency.answer, Recency.next, missed,
        Recency.without_of_absent (matching.absent named absent)]
      exact ⟨rfl, matching⟩
  | remove split holds =>
      rw [split] at matching named
      obtain ⟨entry, others, found, rest, _, _, sameValue, matchingRest⟩ :=
        matching.found distinct named holds
      rw [Recency.answer, Recency.next, found, rest]
      exact ⟨by rw [Option.map_some, sameValue], matchingRest⟩
  | contains =>
      rename_i key
      refine ⟨?_, matching⟩
      cases held : timeline.records.any (·.holds (HashCode.shifted key) key) with
      | false =>
          have absent := matching.absent named (List.any_eq_false.1 held)
          rw [Recency.answer, Recency.lookup_eq_none_iff.2 absent]
          rfl
      | true =>
          obtain ⟨record, member, holds⟩ := List.any_eq_true.1 held
          obtain ⟨before, after, split⟩ := List.append_of_mem member
          rw [split] at matching named
          obtain ⟨entry, others, found, _⟩ := matching.found distinct named holds
          rw [Recency.answer, found]
          rfl
  | size => exact ⟨by rw [Recency.answer, length], matching⟩
  | clear => exact ⟨rfl, .nil⟩

end Round.Timeline

/-! ## Histories -/

/-- Serves a request and tells the answer and the size afterwards. -/
def RoundCache.report [BEq κ] [Hashable κ] (cache : RoundCache κ ν) (request : CacheRequest κ ν) :
    Checked (RoundCache κ ν × CacheAnswer ν × Nat) := do
  let (cache, outcome) ← cache.serve request
  return (cache, outcome.answer, cache.size)

/-- Serves a request and tells the answer and the size afterwards. -/
def AccessMap.report [BEq κ] [Hashable κ] (map : AccessMap κ ν) (request : CacheRequest κ ν) :
    Checked (AccessMap κ ν × CacheAnswer ν × Nat) := do
  let (map, answer) ← map.serve request
  return (map, answer, map.size)

/-- What a list in the order of last use answers, and its length afterwards. -/
def Recency.report [BEq κ] (capacity : Nat) (entries : List (κ × ν)) (request : CacheRequest κ ν) :
    Checked (List (κ × ν) × CacheAnswer ν × Nat) :=
  let entries' := next capacity entries request
  .ok (entries', answer entries request, entries'.length)

section Histories

variable [BEq κ] [EquivBEq κ] [Hashable κ] [LawfulHashable κ]

/-- The cache shows a timely timeline whose records match the entries. -/
def RoundCache.Recalls (limit : Nat) (cache : RoundCache κ ν) (entries : List (κ × ν)) : Prop :=
  ∃ timeline start base, cache.Shows timeline ∧ timeline.Timely start base ∧
    timeline.limit = limit ∧ Named timeline.records ∧ Matches entries timeline.records ∧
    Recency.Distinct entries

theorem RoundCache.Recalls.serve {limit : Nat} {cache : RoundCache κ ν} {entries : List (κ × ν)}
    (recalls : cache.Recalls limit entries) (request : CacheRequest κ ν) :
    ∃ served outcome, cache.serve request = .ok (served, outcome) ∧
      outcome.answer = Recency.answer entries request ∧
      served.size = (Recency.next limit entries request).length ∧
      served.Recalls limit (Recency.next limit entries request) := by
  obtain ⟨timeline, start, base, shows, timely, rfl, named, matching, distinct⟩ := recalls
  obtain ⟨served, next, outcome, step, follows, showsNext⟩ := shows.serve timely request
  obtain ⟨answer, matchingNext⟩ := follows.recency matching distinct named
  exact ⟨served, outcome, step, answer, showsNext.size.trans matchingNext.length_eq.symm, next, _,
    _, showsNext, timely.step follows, follows.limit_eq, follows.named named, matchingNext,
    distinct.next _ _⟩

theorem RoundCache.Recalls.report {limit : Nat} {cache : RoundCache κ ν} {entries : List (κ × ν)}
    (recalls : cache.Recalls limit entries) (request : CacheRequest κ ν) :
    ∃ served entries' answer,
      cache.report request = .ok (served, answer) ∧
      Recency.report limit entries request = .ok (entries', answer) ∧
      served.Recalls limit entries' := by
  obtain ⟨served, outcome, step, answer, size, recallsNext⟩ := recalls.serve request
  refine ⟨served, _, _, ?_, rfl, recallsNext⟩
  simp [RoundCache.report, step, answer, size]

omit [EquivBEq κ] [LawfulHashable κ] in
/-- A fresh cache shows no entries. -/
theorem RoundCache.recalls_of_ofLimit {limit : Nat} (large : minLimit < limit) :
    ∃ fresh : RoundCache κ ν, ofLimit limit = .ok fresh ∧ fresh.Recalls limit [] := by
  obtain ⟨fresh, built, shows⟩ := shows_of_ofLimit (κ := κ) (ν := ν) large
  exact ⟨fresh, built, _, 0, 0, shows, Timeline.timely_empty large, rfl,
    (by simp [Named] : Named ([] : List (Record κ ν))), .nil, Recency.distinct_nil⟩

/-- A fresh round cache answers every history as the list in the order of last use. -/
theorem RoundCache.report_recency {limit : Nat} (large : minLimit < limit)
    (requests : List (CacheRequest κ ν)) :
    ∃ (fresh final : RoundCache κ ν) (entries : List (κ × ν))
      (answers : List (CacheAnswer ν × Nat)),
      ofLimit limit = .ok fresh ∧
      serveAll RoundCache.report fresh requests = .ok (final, answers) ∧
      serveAll (Recency.report limit) [] requests = .ok (entries, answers) := by
  obtain ⟨fresh, built, recalls⟩ := recalls_of_ofLimit (κ := κ) (ν := ν) large
  have step : ∀ {first second} (request : CacheRequest κ ν), RoundCache.Recalls limit first second →
      ∃ first' second' answer, first.report request = .ok (first', answer) ∧
        Recency.report limit second request = .ok (second', answer) ∧
        RoundCache.Recalls limit first' second' := fun request related => related.report request
  obtain ⟨final, entries, answers, run, listRun, _⟩ := serveAll_related step requests recalls
  exact ⟨fresh, final, entries, answers, built, run, listRun⟩

theorem AccessMap.Recalls.report {capacity : Nat} {map : AccessMap κ ν} {entries : List (κ × ν)}
    (recalls : map.Recalls capacity entries) (request : CacheRequest κ ν) :
    ∃ served entries' answer,
      map.report request = .ok (served, answer) ∧
      Recency.report capacity entries request = .ok (entries', answer) ∧
      served.Recalls capacity entries' := by
  obtain ⟨shows, rfl⟩ := recalls
  obtain ⟨served, step, showsNext, sameCapacity⟩ := shows.serve request
  refine ⟨served, _, _, ?_, rfl, showsNext, congrArg Capacity.val sameCapacity⟩
  rw [AccessMap.report, step, ok_bind, ← showsNext.size]
  rfl

/-- A fresh access map answers every history as the list in the order of last use. -/
theorem AccessMap.report_recency (capacity : Capacity) (requests : List (CacheRequest κ ν)) :
    ∃ (final : AccessMap κ ν) (entries : List (κ × ν)) (answers : List (CacheAnswer ν × Nat)),
      serveAll AccessMap.report (empty capacity) requests = .ok (final, answers) ∧
      serveAll (Recency.report capacity.val) [] requests = .ok (entries, answers) := by
  have recalls : (empty capacity : AccessMap κ ν).Recalls capacity.val [] :=
    ⟨shows_empty capacity, rfl⟩
  have step : ∀ {first second} (request : CacheRequest κ ν),
      AccessMap.Recalls capacity.val first second →
      ∃ first' second' answer, first.report request = .ok (first', answer) ∧
        Recency.report capacity.val second request = .ok (second', answer) ∧
        AccessMap.Recalls capacity.val first' second' :=
    fun request related => related.report request
  obtain ⟨final, entries, answers, run, listRun, _⟩ := serveAll_related step requests recalls
  exact ⟨final, entries, answers, run, listRun⟩

end Histories

/-! ## Round caches and access maps -/

/-- A fresh round cache and a fresh access map of the same size serve every history, whatever their
hash functions are. At every step they give the same answer and have the same size afterwards:
those of the list in the order of last use. -/
theorem RoundCache.is_exact_lru [BEq κ] [EquivBEq κ] (roundHash accessHash : Hashable κ)
    (roundLawful : @LawfulHashable κ _ roundHash) (accessLawful : @LawfulHashable κ _ accessHash)
    {limit : Nat} (large : minLimit < limit) (requests : List (CacheRequest κ ν)) :
    ∃ (fresh final : RoundCache κ ν) (map : @AccessMap κ ν _ accessHash)
      (entries : List (κ × ν)) (answers : List (CacheAnswer ν × Nat)),
      ofLimit limit = .ok fresh ∧
      serveAll (@RoundCache.report κ ν _ roundHash) fresh requests = .ok (final, answers) ∧
      serveAll (@AccessMap.report κ ν _ accessHash)
        (@AccessMap.empty κ ν _ accessHash ⟨limit, Nat.zero_lt_of_lt large⟩) requests =
          .ok (map, answers) ∧
      serveAll (Recency.report limit) [] requests = .ok (entries, answers) := by
  obtain ⟨fresh, final, entries, answers, built, run, listRun⟩ :=
    @report_recency κ ν _ _ roundHash roundLawful limit large requests
  obtain ⟨map, others, sameAnswers, mapRun, sameRun⟩ :=
    @AccessMap.report_recency κ ν _ _ accessHash accessLawful
      ⟨limit, Nat.zero_lt_of_lt large⟩ requests
  rw [listRun] at sameRun
  cases sameRun
  exact ⟨fresh, final, map, entries, answers, built, run, mapRun, listRun⟩

/-- Sixty keys put into a round cache that digests them and into an access map where all of them
collide. -/
theorem RoundCache.is_exact_lru_colliding_keys :
    minLimit < 51 ∧
    ∃ (fresh final : RoundCache Key Nat)
      (map : @AccessMap Key Nat _ (KeyHashing.constant 7).hashable)
      (answers : List (CacheAnswer Nat × Nat)),
      ofLimit 51 = .ok fresh ∧
      serveAll (@RoundCache.report Key Nat _ KeyHashing.fnv.hashable) fresh
        ((List.range 60).map fun number : Nat => .put (Key.exact (.int number)) number) =
          .ok (final, answers) ∧
      serveAll (@AccessMap.report Key Nat _ (KeyHashing.constant 7).hashable)
        (@AccessMap.empty Key Nat _ (KeyHashing.constant 7).hashable ⟨51, by decide⟩)
        ((List.range 60).map fun number : Nat => .put (Key.exact (.int number)) number) =
          .ok (map, answers) := by
  obtain ⟨fresh, final, map, _, answers, built, run, mapRun, _⟩ :=
    RoundCache.is_exact_lru KeyHashing.fnv.hashable (KeyHashing.constant 7).hashable
      KeyHashing.fnv.lawfulHashable (KeyHashing.constant 7).lawfulHashable
      (show minLimit < 51 by decide)
      ((List.range 60).map fun number : Nat => .put (Key.exact (.int number)) number)
  exact ⟨by decide, fresh, final, map, answers, built, run, mapRun⟩

end BoundedCache
