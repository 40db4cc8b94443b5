import BoundedCache.Proofs.Requests
import BoundedCache.Round.Cache
import Mathlib.Data.List.Pairwise

/-!
# Timelines

A timeline is what a round cache means: its entries from head to tail, each with the time of its
last visit, and the pace at which rounds begin. Requests change it step by step, and an entry that
has to give way is always the one at the tail.

That the search for a victim stops at the tail at once rests on two facts. The times of the visits
fall strictly from head to tail, so a full timeline spans at least as many visits as it has
entries. And rounds begin at equal distances since the last clear, so the oldest header is never
as old as three rounds.
-/

namespace BoundedCache.Round

/-! ## Pace -/

/-- The clock of a round cache. -/
structure Pace where
  roundLength : Nat
  tick : Nat := 0
  visits : Nat := 0
  headers : Headers := {}
  rounds : Nat := 0

namespace Pace

/-- One visit; the one that completes a round begins the next. -/
def advance (pace : Pace) : Pace :=
  if pace.roundLength ≤ pace.visits + 1 then
    { pace with
      tick := pace.tick + 1
      visits := 0
      headers := pace.headers.push (pace.tick + 1)
      rounds := pace.rounds + 1 }
  else { pace with tick := pace.tick + 1, visits := pace.visits + 1 }

/-- The visits of this round are counted anew. -/
def restart (pace : Pace) : Pace :=
  { pace with visits := 0 }

/-- What a request with its answer makes of the pace: lookups that find their key and puts are
visits, and clearing restarts the round. -/
def next {κ ν : Type} (pace : Pace) : CacheRequest κ ν → CacheAnswer ν → Pace
  | .get _, .value (some _) => pace.advance
  | .put _ _, _ => pace.advance
  | .clear, _ => pace.restart
  | _, _ => pace

/-- What a history makes of the pace. -/
def replay {κ ν : Type} (pace : Pace) :
    List (CacheRequest κ ν) → List (CacheOutcome κ ν) → Pace
  | request :: requests, outcome :: outcomes =>
      (pace.next request outcome.answer).replay requests outcomes
  | _, _ => pace

@[simp] theorem advance_roundLength (pace : Pace) :
    pace.advance.roundLength = pace.roundLength := by
  rw [advance]
  split <;> rfl

theorem next_roundLength {κ ν : Type} (pace : Pace) (request : CacheRequest κ ν)
    (answer : CacheAnswer ν) : (pace.next request answer).roundLength = pace.roundLength := by
  rw [next.eq_def]
  split
  · exact pace.advance_roundLength
  · exact pace.advance_roundLength
  · rfl
  · rfl

theorem replay_roundLength {κ ν : Type} (pace : Pace) (requests : List (CacheRequest κ ν))
    (outcomes : List (CacheOutcome κ ν)) :
    (pace.replay requests outcomes).roundLength = pace.roundLength := by
  induction requests generalizing pace outcomes with
  | nil => rfl
  | cons request rest inductionHypothesis =>
      cases outcomes with
      | nil => rfl
      | cons outcome others =>
          rw [replay, inductionHypothesis, next_roundLength]

@[simp] theorem advance_tick (pace : Pace) : pace.advance.tick = pace.tick + 1 := by
  rw [advance]
  split <;> rfl

/-- Rounds began at equal distances since the time `start`, when `base` rounds had begun. -/
structure Steady (pace : Pace) (start base : Nat) : Prop where
  incomplete : pace.visits < pace.roundLength
  since : base ≤ pace.rounds
  elapsed : pace.tick = start + (pace.rounds - base) * pace.roundLength + pace.visits
  first : base < pace.rounds → pace.headers.first + pace.visits = pace.tick
  middle : base + 1 < pace.rounds → pace.headers.middle + pace.roundLength = pace.headers.first
  last : base + 2 < pace.rounds → pace.headers.last + pace.roundLength = pace.headers.middle
  lastBeforeMiddle : pace.headers.last ≤ pace.headers.middle
  middleBeforeFirst : pace.headers.middle ≤ pace.headers.first
  firstBeforeNow : pace.headers.first ≤ pace.tick

theorem steady_zero {roundLength : Nat} (positive : 0 < roundLength) :
    ({ roundLength } : Pace).Steady 0 0 where
  incomplete := positive
  since := Nat.le_refl 0
  elapsed := by simp
  first := by simp
  middle := by simp
  last := by simp
  lastBeforeMiddle := Nat.le_refl 0
  middleBeforeFirst := Nat.le_refl 0
  firstBeforeNow := Nat.le_refl 0

variable {pace : Pace} {start base : Nat}

theorem Steady.advance (steady : pace.Steady start base) : pace.advance.Steady start base := by
  obtain ⟨incomplete, since, elapsed, first, middle, last, lastMiddle, middleFirst, firstNow⟩ :=
    steady
  rw [Pace.advance]
  split
  · rename_i complete
    have exact : pace.visits + 1 = pace.roundLength := by omega
    have rounds : pace.rounds + 1 - base = pace.rounds - base + 1 := by omega
    refine ⟨by simp only; omega, by simp only; omega, ?_, ?_, ?_, ?_, ?_, ?_, ?_⟩
    · simp only [rounds, Nat.add_mul]
      omega
    · simp [Headers.push]
    · simp only [Headers.push]
      omega
    · simp only [Headers.push]
      omega
    · exact middleFirst
    · simp only [Headers.push]
      omega
    · exact Nat.le_refl _
  · refine ⟨by simp only; omega, since, by simp only; omega, ?_, middle, last, lastMiddle,
      middleFirst, by simp only; omega⟩
    simp only
    omega

theorem Steady.restart (steady : pace.Steady start base) :
    pace.restart.Steady pace.tick pace.rounds where
  incomplete := Nat.lt_of_le_of_lt (Nat.zero_le _) steady.incomplete
  since := Nat.le_refl _
  elapsed := by simp [Pace.restart]
  first := by simp [Pace.restart]
  middle := by
    simp only [Pace.restart]
    omega
  last := by
    simp only [Pace.restart]
    omega
  lastBeforeMiddle := steady.lastBeforeMiddle
  middleBeforeFirst := steady.middleBeforeFirst
  firstBeforeNow := steady.firstBeforeNow

/-- The numbers of rounds and visits are what division leaves of the time. -/
theorem Steady.div_mod (steady : pace.Steady 0 0) :
    pace.rounds = pace.tick / pace.roundLength ∧ pace.visits = pace.tick % pace.roundLength := by
  have elapsed := steady.elapsed
  have incomplete := steady.incomplete
  rw [Nat.zero_add, Nat.sub_zero, Nat.mul_comm] at elapsed
  have positive : 0 < pace.roundLength := Nat.lt_of_le_of_lt (Nat.zero_le _) incomplete
  rw [elapsed]
  constructor
  · rw [Nat.mul_add_div positive, Nat.div_eq_of_lt incomplete, Nat.add_zero]
  · rw [Nat.mul_add_mod, Nat.mod_eq_of_lt incomplete]

/-- Once three rounds have passed, the oldest header lies less than three rounds back. -/
theorem Steady.lt_last (steady : pace.Steady start base)
    (passed : start + 3 * pace.roundLength ≤ pace.tick) :
    pace.tick < pace.headers.last + 3 * pace.roundLength := by
  have incomplete := steady.incomplete
  have elapsed := steady.elapsed
  have threeRounds : base + 2 < pace.rounds := by
    by_contra few
    have atMostTwo : (pace.rounds - base) * pace.roundLength ≤ 2 * pace.roundLength :=
      Nat.mul_le_mul_right _ (by omega)
    omega
  have first := steady.first (by omega)
  have middle := steady.middle (by omega)
  have last := steady.last threeRounds
  omega

end Pace

/-! ## Records -/

/-- A stored value with its key, the key's hash code and the time of its last visit. -/
structure Record (κ ν : Type) where
  hash : UInt32
  key : κ
  value : ν
  time : Nat

/-- Whether this is the record for a key under a hash code. -/
def Record.holds {κ ν : Type} [BEq κ] (record : Record κ ν) (hash : UInt32) (key : κ) : Bool :=
  record.hash == hash && record.key == key

/-! ## Timelines -/

/-- The entries of a round cache from head to tail, with its clock and its counters. -/
structure Timeline (κ ν : Type) where
  limit : Nat
  pace : Pace
  core : Counters := {}
  records : List (Record κ ν) := []

namespace Timeline

variable {κ ν : Type}

def tally (event : Counters → Counters) (timeline : Timeline κ ν) : Timeline κ ν :=
  { timeline with core := event timeline.core }

/-- A visit puts a record in front of the others. -/
def visit (timeline : Timeline κ ν) (record : Record κ ν) (others : List (Record κ ν)) :
    Timeline κ ν :=
  let pace := timeline.pace.advance
  { timeline with pace, records := { record with time := pace.tick } :: others }

def clear (timeline : Timeline κ ν) : Timeline κ ν :=
  { timeline with pace := timeline.pace.restart, records := [] }

/-- How a request changes a timeline, and its outcome. -/
inductive Step [BEq κ] [Hashable κ] :
    Timeline κ ν → CacheRequest κ ν → Timeline κ ν → CacheOutcome κ ν → Prop where
  | miss {timeline key}
      (absent : ∀ record ∈ timeline.records, ¬ record.holds (HashCode.shifted key) key) :
      Step timeline (.get key) (timeline.tally Counters.countMiss) { answer := .value none }
  | hit {timeline key before record after}
      (split : timeline.records = before ++ record :: after)
      (holds : record.holds (HashCode.shifted key) key) :
      Step timeline (.get key) ((timeline.visit record (before ++ after)).tally Counters.countHit)
        { answer := .value (some record.value) }
  | overwrite {timeline key value before record after}
      (split : timeline.records = before ++ record :: after)
      (holds : record.holds (HashCode.shifted key) key) :
      Step timeline (.put key value)
        ((timeline.visit { record with value } (before ++ after)).tally Counters.countUpdate)
        { answer := .value (some record.value) }
  | add {timeline key value}
      (absent : ∀ record ∈ timeline.records, ¬ record.holds (HashCode.shifted key) key)
      (room : timeline.records.length < timeline.limit) :
      Step timeline (.put key value)
        ((timeline.visit ⟨HashCode.shifted key, key, value, 0⟩ timeline.records).tally
          Counters.countInsertion)
        { answer := .value none }
  | exchange {timeline key value before oldest}
      (absent : ∀ record ∈ timeline.records, ¬ record.holds (HashCode.shifted key) key)
      (split : timeline.records = before ++ [oldest])
      (full : timeline.limit ≤ timeline.records.length) :
      Step timeline (.put key value)
        (((timeline.visit ⟨HashCode.shifted key, key, value, 0⟩ before).tally
          Counters.countInsertion).tally Counters.countEviction)
        { answer := .value none, evicted := [oldest.key] }
  | keep {timeline key}
      (absent : ∀ record ∈ timeline.records, ¬ record.holds (HashCode.shifted key) key) :
      Step timeline (.remove key) timeline { answer := .value none }
  | remove {timeline key before record after}
      (split : timeline.records = before ++ record :: after)
      (holds : record.holds (HashCode.shifted key) key) :
      Step timeline (.remove key)
        (({ timeline with records := before ++ after } : Timeline κ ν).tally
          Counters.countRemoval)
        { answer := .value (some record.value) }
  | contains {timeline key} :
      Step timeline (.contains key) timeline
        { answer := .held (timeline.records.any (·.holds (HashCode.shifted key) key)) }
  | size {timeline} :
      Step timeline .size timeline { answer := .count timeline.records.length }
  | clear {timeline} :
      Step timeline .clear timeline.clear { answer := .cleared }

/-- Rounds begin with visits and with nothing else. -/
theorem Step.pace [BEq κ] [Hashable κ] {timeline after : Timeline κ ν}
    {request : CacheRequest κ ν} {outcome : CacheOutcome κ ν}
    (step : Step timeline request after outcome) :
    after.pace = timeline.pace.next request outcome.answer := by
  cases step <;> rfl

/-! ## Timely timelines -/

/-- The records were visited after the time `start`, one after the other, and rounds began at
equal distances since. -/
structure Timely (timeline : Timeline κ ν) (start base : Nat) : Prop where
  steady : timeline.pace.Steady start base
  large : RoundCache.minLimit < timeline.limit
  roundLength : timeline.pace.roundLength = RoundCache.roundLengthFor timeline.limit
  bounded : timeline.records.length ≤ timeline.limit
  falling : timeline.records.Pairwise fun newer older => older.time < newer.time
  recent : ∀ record ∈ timeline.records, start < record.time ∧ record.time ≤ timeline.pace.tick

section Timely

variable {timeline : Timeline κ ν} {start base : Nat}

theorem timely_empty {limit : Nat} (large : RoundCache.minLimit < limit) :
    Timely (⟨limit, { roundLength := RoundCache.roundLengthFor limit }, {}, []⟩ : Timeline κ ν)
      0 0 where
  steady := by
    refine Pace.steady_zero ?_
    simp only [RoundCache.minLimit] at large
    simp only [RoundCache.roundLengthFor]
    omega
  large := large
  roundLength := rfl
  bounded := Nat.zero_le _
  falling := .nil
  recent := by simp

theorem Timely.tally (timely : timeline.Timely start base) (event : Counters → Counters) :
    (timeline.tally event).Timely start base :=
  ⟨timely.steady, timely.large, timely.roundLength, timely.bounded, timely.falling, timely.recent⟩

theorem Timely.sublist (timely : timeline.Timely start base) {records : List (Record κ ν)}
    (fewer : records.Sublist timeline.records) :
    ({ timeline with records } : Timeline κ ν).Timely start base where
  steady := timely.steady
  large := timely.large
  roundLength := timely.roundLength
  bounded := Nat.le_trans fewer.length_le timely.bounded
  falling := timely.falling.sublist fewer
  recent record member := timely.recent record (fewer.subset member)

/-- A visit is later than all before it. -/
theorem Timely.visit (timely : timeline.Timely start base) (record : Record κ ν)
    {others : List (Record κ ν)} (fewer : others.Sublist timeline.records)
    (room : others.length < timeline.limit) :
    (timeline.visit record others).Timely start base := by
  have fewerTimely := timely.sublist fewer
  have now := timely.steady.elapsed
  refine ⟨timely.steady.advance, timely.large, ?_, room, ?_, ?_⟩
  · simp only [Timeline.visit, Pace.advance_roundLength, timely.roundLength]
  · refine List.pairwise_cons.2 ⟨fun older member => ?_, fewerTimely.falling⟩
    have bound := (fewerTimely.recent older member).2
    simp only [Pace.advance_tick] at bound ⊢
    omega
  · simp only [Timeline.visit, Pace.advance_tick]
    refine List.forall_mem_cons.2 ⟨?_, fun older member => ?_⟩
    · simp only
      omega
    · have bounds := fewerTimely.recent older member
      simp only at bounds
      omega

theorem Timely.clear (timely : timeline.Timely start base) :
    timeline.clear.Timely timeline.pace.tick timeline.pace.rounds :=
  ⟨timely.steady.restart, timely.large, timely.roundLength, Nat.zero_le _, .nil, by
    simp [Timeline.clear]⟩

/-- Records with falling times are no more than the times from the last of them on. -/
theorem length_le_of_falling {records : List (Record κ ν)} {oldest : Record κ ν} {now : Nat}
    (falling : (records ++ [oldest]).Pairwise fun newer older => older.time < newer.time)
    (past : ∀ record ∈ records ++ [oldest], record.time ≤ now) :
    oldest.time + records.length ≤ now := by
  induction records generalizing now with
  | nil => exact past oldest (by simp)
  | cons newest rest inductionHypothesis =>
      rw [List.cons_append, List.pairwise_cons] at falling
      have newestPast := past newest (by simp)
      have earlier : ∀ record ∈ rest ++ [oldest], record.time ≤ newest.time - 1 := by
        intro record member
        have before := falling.1 record member
        omega
      have shorter := inductionHypothesis falling.2 earlier
      have beforeNewest := falling.1 oldest (by simp)
      rw [List.length_cons]
      omega

/-- When a visit finds the timeline full, the record at its tail is as old as the oldest header. -/
theorem Timely.due (timely : timeline.Timely start base) {before : List (Record κ ν)}
    {oldest : Record κ ν} (split : timeline.records = before ++ [oldest])
    (full : timeline.limit ≤ timeline.records.length) :
    oldest.time ≤ timeline.pace.advance.headers.last := by
  have falling := timely.falling
  have recent := timely.recent
  have large := timely.large
  rw [split] at falling recent full
  rw [List.length_append, List.length_singleton] at full
  have spanned := length_le_of_falling falling fun record member => (recent record member).2
  have sinceStart := (recent oldest (by simp)).1
  have length : 3 * timeline.pace.advance.roundLength + 4 ≤ timeline.limit := by
    rw [Pace.advance_roundLength, timely.roundLength]
    simp only [RoundCache.minLimit] at large
    simp only [RoundCache.roundLengthFor]
    omega
  have passed : start + 3 * timeline.pace.advance.roundLength ≤ timeline.pace.advance.tick := by
    rw [Pace.advance_tick]
    omega
  have header := timely.steady.advance.lt_last passed
  rw [Pace.advance_tick] at header
  omega

theorem Timely.without (timely : timeline.Timely start base) {before after : List (Record κ ν)}
    {record : Record κ ν} (split : timeline.records = before ++ record :: after) :
    (before ++ after).Sublist timeline.records ∧ (before ++ after).length < timeline.limit := by
  have bounded := timely.bounded
  rw [split] at bounded ⊢
  refine ⟨(List.Sublist.refl before).append (List.sublist_cons_self record after), ?_⟩
  simp only [List.length_append, List.length_cons] at bounded ⊢
  omega

/-- Every step keeps a timeline timely; clearing it starts anew. -/
theorem Timely.step [BEq κ] [Hashable κ] {next : Timeline κ ν} {request : CacheRequest κ ν}
    {outcome : CacheOutcome κ ν} (timely : timeline.Timely start base)
    (step : Step timeline request next outcome) :
    next.Timely (if request.clears then timeline.pace.tick else start)
      (if request.clears then timeline.pace.rounds else base) := by
  cases step with
  | miss => exact timely.tally _
  | hit split =>
      obtain ⟨fewer, room⟩ := timely.without split
      exact (timely.visit _ fewer room).tally _
  | overwrite split =>
      obtain ⟨fewer, room⟩ := timely.without split
      exact (timely.visit _ fewer room).tally _
  | add absent room => exact (timely.visit _ (List.Sublist.refl _) room).tally _
  | exchange absent split =>
      obtain ⟨fewer, room⟩ := timely.without split
      rw [List.append_nil] at fewer room
      exact ((timely.visit _ fewer room).tally _).tally _
  | keep => exact timely
  | remove split => exact (timely.sublist (timely.without split).1).tally _
  | contains => exact timely
  | size => exact timely
  | clear => exact timely.clear

end Timely

end Timeline

end BoundedCache.Round
