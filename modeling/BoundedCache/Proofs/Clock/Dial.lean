import BoundedCache.Clock.Sweep
import Mathlib.Data.List.Pairwise

/-!
# Dials

Seen from the hand, a clock table is the list of its entries in the order in which the hand meets
them. A dial is this list with the counters. Its operations say what those of a table mean: a new
entry comes last, a visit moves nothing, and a sweep turns the dial past the entries that it
passes.
-/

namespace BoundedCache.Clock

variable {κ ν : Type}

/-! ## Entries and keys -/

/-- Whether this is the entry for a key under a hash code. -/
def Entry.holds [BEq κ] (entry : Entry κ ν) (hash : UInt32) (key : κ) : Bool :=
  entry.hash == hash && entry.key == key

theorem Entry.holds_iff [BEq κ] {entry : Entry κ ν} {hash : UInt32} {key : κ} :
    entry.holds hash key ↔ entry.hash = hash ∧ (entry.key == key) = true := by
  simp [Entry.holds]

theorem Entry.holds_self [BEq κ] [ReflBEq κ] (entry : Entry κ ν) :
    entry.holds entry.hash entry.key := by
  simp [Entry.holds]

theorem Entry.holds_of_holds [BEq κ] [PartialEquivBEq κ] {first second : Entry κ ν}
    {hash : UInt32} {key : κ} (firstHolds : first.holds hash key)
    (secondHolds : second.holds hash key) : first.holds second.hash second.key := by
  rw [Entry.holds_iff] at *
  exact ⟨firstHolds.1.trans secondHolds.1.symm,
    PartialEquivBEq.trans firstHolds.2 (PartialEquivBEq.symm secondHolds.2)⟩

theorem Entry.holds_symm [BEq κ] [PartialEquivBEq κ] {first second : Entry κ ν}
    (holds : first.holds second.hash second.key) : second.holds first.hash first.key := by
  rw [Entry.holds_iff] at *
  exact ⟨holds.1.symm, PartialEquivBEq.symm holds.2⟩

theorem Entry.visit_inRange (entry : Entry κ ν) :
    0 < entry.visit.visits ∧ entry.visit.visits ≤ maxVisits := by
  simp only [Entry.visit, maxVisits]
  omega

/-- Changes the entry for a key, wherever it is. -/
def reviseEntry [BEq κ] (change : Entry κ ν → Entry κ ν) (hash : UInt32) (key : κ)
    (entries : List (Entry κ ν)) : List (Entry κ ν) :=
  entries.map fun entry => if entry.holds hash key then change entry else entry

/-- Drops the entry for a key. -/
def dropEntry [BEq κ] (hash : UInt32) (key : κ) (entries : List (Entry κ ν)) :
    List (Entry κ ν) :=
  entries.filter fun entry => !entry.holds hash key

theorem reviseEntry_middle [BEq κ] {change : Entry κ ν → Entry κ ν} {hash : UInt32} {key : κ}
    {before after : List (Entry κ ν)} {entry : Entry κ ν} (holds : entry.holds hash key)
    (others : ∀ other ∈ before ++ after, ¬ other.holds hash key) :
    reviseEntry change hash key (before ++ entry :: after) = before ++ change entry :: after := by
  have unchanged : ∀ entries : List (Entry κ ν), (∀ other ∈ entries, ¬ other.holds hash key) →
      entries.map (fun other => if other.holds hash key then change other else other) =
        entries := by
    intro entries none
    calc
      _ = entries.map id := List.map_congr_left fun other member => if_neg (none other member)
      _ = entries := List.map_id entries
  rw [reviseEntry, List.map_append, List.map_cons, if_pos holds,
    unchanged before fun other member => others other (List.mem_append_left _ member),
    unchanged after fun other member => others other (List.mem_append_right _ member)]

theorem dropEntry_middle [BEq κ] {hash : UInt32} {key : κ} {before after : List (Entry κ ν)}
    {entry : Entry κ ν} (holds : entry.holds hash key)
    (others : ∀ other ∈ before ++ after, ¬ other.holds hash key) :
    dropEntry hash key (before ++ entry :: after) = before ++ after := by
  have kept : ∀ entries : List (Entry κ ν), (∀ other ∈ entries, ¬ other.holds hash key) →
      entries.filter (fun other => !other.holds hash key) = entries := by
    intro entries none
    rw [List.filter_eq_self]
    intro other member
    simpa using none other member
  rw [dropEntry, List.filter_append, List.filter_cons_of_neg (by simpa using holds),
    kept before fun other member => others other (List.mem_append_left _ member),
    kept after fun other member => others other (List.mem_append_right _ member)]

/-! ## Valid entries -/

/-- No key is held twice, and each entry has visits left, as many as it can count. -/
structure Valid [BEq κ] (entries : List (Entry κ ν)) : Prop where
  distinct : entries.Pairwise fun first second => ¬ first.holds second.hash second.key
  visited : ∀ entry ∈ entries, 0 < entry.visits
  bounded : ∀ entry ∈ entries, entry.visits ≤ maxVisits

section Valid

variable [BEq κ] {entries others : List (Entry κ ν)}

theorem valid_nil : Valid ([] : List (Entry κ ν)) :=
  ⟨.nil, by simp, by simp⟩

theorem Valid.sublist (valid : Valid entries) (fewer : others.Sublist entries) : Valid others where
  distinct := valid.distinct.sublist fewer
  visited entry member := valid.visited entry (fewer.subset member)
  bounded entry member := valid.bounded entry (fewer.subset member)

/-- Entries that are changed in place stay valid if they keep their keys and their visits stay in
range. -/
theorem Valid.map (valid : Valid entries) {change : Entry κ ν → Entry κ ν}
    (sameHash : ∀ entry ∈ entries, (change entry).hash = entry.hash)
    (sameKey : ∀ entry ∈ entries, (change entry).key = entry.key)
    (inRange : ∀ entry ∈ entries, 0 < (change entry).visits ∧ (change entry).visits ≤ maxVisits) :
    Valid (entries.map change) where
  distinct := by
    rw [List.pairwise_map]
    refine valid.distinct.imp_of_mem ?_
    intro first second firstMember secondMember different
    rw [Entry.holds_iff] at different ⊢
    rwa [sameHash first firstMember, sameHash second secondMember, sameKey first firstMember,
      sameKey second secondMember]
  visited := List.forall_mem_map.2 fun entry member => (inRange entry member).1
  bounded := List.forall_mem_map.2 fun entry member => (inRange entry member).2

/-- Valid entries can be put behind one another if no key is held in both parts. -/
theorem Valid.append (valid : Valid entries) (otherValid : Valid others)
    (apart : ∀ first ∈ entries, ∀ second ∈ others, ¬ first.holds second.hash second.key) :
    Valid (entries ++ others) where
  distinct := List.pairwise_append.2 ⟨valid.distinct, otherValid.distinct, apart⟩
  visited := List.forall_mem_append.2 ⟨valid.visited, otherValid.visited⟩
  bounded := List.forall_mem_append.2 ⟨valid.bounded, otherValid.bounded⟩

theorem Valid.revise (valid : Valid entries) (change : Entry κ ν → Entry κ ν)
    (sameHash : ∀ entry, (change entry).hash = entry.hash)
    (sameKey : ∀ entry, (change entry).key = entry.key)
    (inRange : ∀ entry, 0 < (change entry).visits ∧ (change entry).visits ≤ maxVisits)
    (hash : UInt32) (key : κ) : Valid (reviseEntry change hash key entries) := by
  refine valid.map ?_ ?_ ?_ <;> intro entry member <;> by_cases holds : entry.holds hash key
  · rw [if_pos holds, sameHash]
  · rw [if_neg holds]
  · rw [if_pos holds, sameKey]
  · rw [if_neg holds]
  · rw [if_pos holds]
    exact inRange entry
  · rw [if_neg holds]
    exact ⟨valid.visited entry member, valid.bounded entry member⟩

theorem Valid.unique [PartialEquivBEq κ] (valid : Valid entries) {first second : Entry κ ν}
    {hash : UInt32} {key : κ} (firstMember : first ∈ entries) (secondMember : second ∈ entries)
    (firstHolds : first.holds hash key) (secondHolds : second.holds hash key) :
    first = second := by
  by_contra different
  have symmetric : Std.Symm fun first second : Entry κ ν =>
      ¬ first.holds second.hash second.key :=
    ⟨fun _ _ apart holds => apart (Entry.holds_symm holds)⟩
  exact valid.distinct.forall firstMember secondMember different
    (Entry.holds_of_holds firstHolds secondHolds)

theorem Valid.apart [PartialEquivBEq κ] {before after : List (Entry κ ν)} {entry : Entry κ ν}
    {hash : UInt32} {key : κ} (valid : Valid (before ++ entry :: after))
    (holds : entry.holds hash key) : ∀ other ∈ before ++ after, ¬ other.holds hash key := by
  obtain ⟨_, behind, apart⟩ := List.pairwise_append.1 valid.distinct
  intro other member otherHolds
  rcases List.mem_append.1 member with inBefore | inAfter
  · exact apart other inBefore entry (List.mem_cons_self)
      (Entry.holds_of_holds otherHolds holds)
  · exact (List.pairwise_cons.1 behind).1 other inAfter (Entry.holds_of_holds holds otherHolds)

end Valid

/-! ## Strokes of the hand -/

/-- What a sweep does to the entries ahead of the hand: some are passed and lose a visit, one may
be left without visits, and the others stay ahead. -/
structure Stroke (κ ν : Type) where
  passed : List (Entry κ ν)
  victim : Option (Entry κ ν)
  ahead : List (Entry κ ν)

/-- The stroke of a hand that may pass `budget` entries. -/
def strike : Nat → List (Entry κ ν) → Stroke κ ν
  | 0, ahead => ⟨[], none, ahead⟩
  | _ + 1, [] => ⟨[], none, []⟩
  | budget + 1, entry :: ahead =>
      if entry.age.visits = 0 then ⟨[], some entry.age, ahead⟩
      else
        let stroke := strike budget ahead
        { stroke with passed := entry.age :: stroke.passed }

/-- The entries as the hand meets them after the stroke. -/
def Stroke.turned (stroke : Stroke κ ν) : List (Entry κ ν) :=
  stroke.ahead ++ stroke.passed

/-- How many entries the hand reached. -/
def Stroke.reached (stroke : Stroke κ ν) : Nat :=
  stroke.passed.length + stroke.victim.toList.length

/-- Whether the budget was spent with entries still ahead. -/
def Stroke.isShort (stroke : Stroke κ ν) : Bool :=
  stroke.victim.isNone && !stroke.ahead.isEmpty

/-- A stroke passes a front of the entries, none of which loses its last visit, and may find one
that does right behind them. -/
theorem strike_split (budget : Nat) (entries : List (Entry κ ν)) :
    ∃ (front : List (Entry κ ν)) (found : Option (Entry κ ν)),
      entries = front ++ found.toList ++ (strike budget entries).ahead ∧
      (strike budget entries).passed = front.map Entry.age ∧
      (strike budget entries).victim = found.map Entry.age ∧
      (∀ entry ∈ front, 1 < entry.visits) ∧ ∀ entry ∈ found, entry.visits ≤ 1 := by
  induction budget generalizing entries with
  | zero => exact ⟨[], none, rfl, rfl, rfl, by simp, by simp⟩
  | succ budget inductionHypothesis =>
      cases entries with
      | nil => exact ⟨[], none, rfl, rfl, rfl, by simp, by simp⟩
      | cons entry ahead =>
          by_cases spent : entry.age.visits = 0
          · have light : entry.visits ≤ 1 := by
              simp only [Entry.age] at spent
              omega
            exact ⟨[], some entry, by simp [strike, spent], by simp [strike, spent],
              by simp [strike, spent], by simp, by simpa using light⟩
          · have heavy : 1 < entry.visits := by
              simp only [Entry.age] at spent
              omega
            obtain ⟨front, found, split, passes, finds, frontHeavy, foundLight⟩ :=
              inductionHypothesis ahead
            refine ⟨entry :: front, found, ?_, ?_, ?_, ?_, foundLight⟩
            · simp only [strike, if_neg spent, List.cons_append]
              rw [← split]
            · simp [strike, spent, passes]
            · simp [strike, spent, finds]
            · exact List.forall_mem_cons.2 ⟨heavy, frontHeavy⟩

theorem length_strike (budget : Nat) (entries : List (Entry κ ν)) :
    (strike budget entries).turned.length + (strike budget entries).victim.toList.length =
      entries.length := by
  obtain ⟨front, found, split, passes, finds, _⟩ := strike_split budget entries
  have lengths := congrArg List.length split
  simp only [List.length_append] at lengths
  rw [Stroke.turned, passes, finds, Option.toList_map]
  simp only [List.length_append, List.length_map]
  omega

/-- A stroke finds the first entry that loses its last visit, if its budget reaches so far. -/
theorem strike_of_light {budget : Nat} {before after : List (Entry κ ν)} {entry : Entry κ ν}
    (heavy : ∀ other ∈ before, 1 < other.visits) (light : entry.visits ≤ 1)
    (reached : before.length < budget) :
    strike budget (before ++ entry :: after) =
      ⟨before.map Entry.age, some entry.age, after⟩ := by
  induction before generalizing budget with
  | nil =>
      obtain ⟨rest, rfl⟩ := Nat.exists_eq_add_one.2 reached
      have spent : entry.age.visits = 0 := Nat.sub_eq_zero_of_le light
      rw [List.nil_append, strike, if_pos spent, List.map_nil]
  | cons other before inductionHypothesis =>
      obtain ⟨otherHeavy, othersHeavy⟩ := List.forall_mem_cons.1 heavy
      obtain ⟨rest, rfl⟩ := Nat.exists_eq_add_one.2 (Nat.zero_lt_of_lt reached)
      have notSpent : ¬ other.age.visits = 0 := Nat.sub_ne_zero_of_lt otherHeavy
      have found := inductionHypothesis othersHeavy (Nat.lt_of_succ_lt_succ reached)
      rw [List.cons_append, strike, if_neg notSpent, found, List.map_cons]

/-- A stroke that meets no such entry passes as many as its budget allows. -/
theorem strike_of_heavy {budget : Nat} {entries : List (Entry κ ν)}
    (heavy : ∀ entry ∈ entries.take budget, 1 < entry.visits) :
    strike budget entries =
      ⟨(entries.take budget).map Entry.age, none, entries.drop budget⟩ := by
  induction budget generalizing entries with
  | zero => rfl
  | succ budget inductionHypothesis =>
      cases entries with
      | nil => rfl
      | cons entry ahead =>
          rw [List.take_succ_cons] at heavy ⊢
          obtain ⟨entryHeavy, aheadHeavy⟩ := List.forall_mem_cons.1 heavy
          have notSpent : ¬ entry.age.visits = 0 := Nat.sub_ne_zero_of_lt entryHeavy
          rw [strike, if_neg notSpent, inductionHypothesis aheadHeavy, List.map_cons,
            List.drop_succ_cons]

/-- The entries stay valid: one that is passed keeps a visit, and the victim is gone. -/
theorem Valid.strike [BEq κ] [PartialEquivBEq κ] {entries : List (Entry κ ν)}
    (valid : Valid entries) (budget : Nat) : Valid (strike budget entries).turned := by
  obtain ⟨front, found, split, passes, _, frontHeavy, _⟩ := strike_split budget entries
  rw [Stroke.turned, passes]
  generalize (Clock.strike budget entries).ahead = ahead at split
  subst split
  have frontValid : Valid front :=
    valid.sublist ((List.sublist_append_left _ _).trans (List.sublist_append_left _ _))
  refine (valid.sublist (List.sublist_append_right _ _)).append ?_ ?_
  · refine frontValid.map (fun _ _ => rfl) (fun _ _ => rfl) ?_
    intro entry member
    have heavy := frontHeavy entry member
    have bounded := frontValid.bounded entry member
    simp only [Entry.age]
    omega
  · intro first firstMember aged agedMember holds
    obtain ⟨second, secondMember, rfl⟩ := List.mem_map.1 agedMember
    rw [List.append_assoc] at valid
    have apart := (List.pairwise_append.1 valid.distinct).2.2 second secondMember first
      (List.mem_append_right _ firstMember)
    exact apart (Entry.holds_symm holds)

/-! ## Dials -/

/-- The entries as the hand meets them, and the counters. -/
structure Dial (κ ν : Type) where
  entries : List (Entry κ ν)
  counters : ClockCounters

namespace Dial

def empty : Dial κ ν :=
  ⟨[], {}⟩

def tally (event : Counters → Counters) (dial : Dial κ ν) : Dial κ ν :=
  { dial with counters := { dial.counters with core := event dial.counters.core } }

def clear (dial : Dial κ ν) : Dial κ ν :=
  { dial with entries := [] }

/-- How many entries a sweep may pass. -/
def budget (dial : Dial κ ν) : Nat :=
  dial.entries.length / 3 + 3

def countStroke (stroke : Stroke κ ν) (counters : ClockCounters) : ClockCounters where
  core := if stroke.victim.isSome then counters.core.countEviction else counters.core
  sweeps := counters.sweeps + 1
  scanned := counters.scanned + stroke.reached
  exhausted := if stroke.isShort then counters.exhausted + 1 else counters.exhausted

/-- One sweep: the hand passes entries until it finds a victim or its budget is spent. -/
def sweep (dial : Dial κ ν) : Dial κ ν × Option (Entry κ ν) :=
  if dial.entries.isEmpty then (dial, none)
  else
    let stroke := strike dial.budget dial.entries
    (⟨stroke.turned, countStroke stroke dial.counters⟩, stroke.victim)

/-- A sweep passes a front of the entries, none of which loses its last visit, and may evict one
that does right behind them. -/
theorem sweep_split (dial : Dial κ ν) :
    ∃ (front ahead : List (Entry κ ν)) (found : Option (Entry κ ν)),
      dial.entries = front ++ found.toList ++ ahead ∧
      dial.sweep.1.entries = ahead ++ front.map Entry.age ∧
      dial.sweep.2 = found.map Entry.age ∧
      (∀ entry ∈ front, 1 < entry.visits) ∧ ∀ entry ∈ found, entry.visits ≤ 1 := by
  rw [sweep]
  split
  · rename_i none
    have empty : dial.entries = [] := List.isEmpty_iff.1 none
    exact ⟨[], [], .none, by simp [empty], by simp [empty], rfl, by simp, by simp⟩
  · obtain ⟨front, found, split, passes, finds, heavy, light⟩ :=
      strike_split dial.budget dial.entries
    exact ⟨front, _, found, split, by rw [← passes]; rfl, finds, heavy, light⟩

/-- A sweep loses no entry but the victim. -/
theorem length_sweep (dial : Dial κ ν) : dial.sweep.1.entries.length + dial.sweep.2.toList.length =
    dial.entries.length := by
  rw [sweep]
  split
  · rfl
  · exact length_strike dial.budget dial.entries

/-- What holds of all hash codes and keys of a dial holds of them after a sweep. -/
theorem names_sweep {dial : Dial κ ν} {Allowed : UInt32 → κ → Prop}
    (all : ∀ entry ∈ dial.entries, Allowed entry.hash entry.key) :
    (∀ entry ∈ dial.sweep.1.entries, Allowed entry.hash entry.key) ∧
      ∀ victim ∈ dial.sweep.2, Allowed victim.hash victim.key := by
  obtain ⟨front, ahead, found, split, turned, finds, _, _⟩ := dial.sweep_split
  rw [split] at all
  rw [turned, finds]
  refine ⟨List.forall_mem_append.2 ⟨fun entry member => ?_, ?_⟩, ?_⟩
  · exact all entry (List.mem_append_right _ member)
  · refine List.forall_mem_map.2 fun entry member => ?_
    exact all entry (List.mem_append_left _ (List.mem_append_left _ member))
  · intro victim evicted
    obtain ⟨entry, rfl, rfl⟩ := Option.map_eq_some_iff.1 evicted
    exact all entry (by simp)

variable [BEq κ]

def find? (dial : Dial κ ν) (hash : UInt32) (key : κ) : Option (Entry κ ν) :=
  dial.entries.find? (·.holds hash key)

/-- The value of a key, whose entry gains a visit where it stands. -/
def get (dial : Dial κ ν) (hash : UInt32) (key : κ) : Dial κ ν × Option ν :=
  match dial.find? hash key with
  | none => (dial.tally Counters.countMiss, none)
  | some entry =>
      let entries := reviseEntry Entry.visit hash key dial.entries
      ({ dial with entries }.tally Counters.countHit, some entry.value)

/-- Stores a value. A new entry comes last with one visit; an old one gains a visit and keeps its
place and its key. -/
def put (dial : Dial κ ν) (hash : UInt32) (key : κ) (value : ν) : Dial κ ν × Option ν :=
  match dial.find? hash key with
  | none =>
      let entries := dial.entries ++ [⟨hash, key, value, 1⟩]
      ({ dial with entries }.tally Counters.countInsertion, none)
  | some entry =>
      let entries := reviseEntry (fun entry => { entry.visit with value }) hash key dial.entries
      ({ dial with entries }.tally Counters.countUpdate, some entry.value)

/-- Removes a key; the other entries keep their order. -/
def remove (dial : Dial κ ν) (hash : UInt32) (key : κ) : Dial κ ν × Option ν :=
  match dial.find? hash key with
  | none => (dial, none)
  | some entry =>
      let entries := dropEntry hash key dial.entries
      ({ dial with entries }.tally Counters.countRemoval, some entry.value)

/-! ## Valid dials -/

section Valid

variable {dial : Dial κ ν} {hash : UInt32} {key : κ}

theorem absent_of_find? (missing : dial.find? hash key = none) :
    ∀ entry ∈ dial.entries, ¬ entry.holds hash key :=
  List.find?_eq_none.1 missing

theorem valid_get (valid : Valid dial.entries) : Valid (dial.get hash key).1.entries := by
  rw [get]
  cases dial.find? hash key with
  | none => exact valid
  | some entry =>
      exact valid.revise Entry.visit (fun _ => rfl) (fun _ => rfl) Entry.visit_inRange hash key

theorem valid_put {value : ν} (valid : Valid dial.entries) :
    Valid (dial.put hash key value).1.entries := by
  rw [put]
  cases found : dial.find? hash key with
  | none =>
      refine valid.append ⟨List.pairwise_singleton _ _, ?_, ?_⟩ ?_
      · simp
      · simp [maxVisits]
      · intro first member
        simpa using absent_of_find? found first member
  | some entry =>
      exact valid.revise (fun entry => { entry.visit with value }) (fun _ => rfl) (fun _ => rfl)
        Entry.visit_inRange hash key

theorem valid_remove (valid : Valid dial.entries) : Valid (dial.remove hash key).1.entries := by
  rw [remove]
  cases dial.find? hash key with
  | none => exact valid
  | some entry => exact valid.sublist List.filter_sublist

theorem valid_sweep [PartialEquivBEq κ] (valid : Valid dial.entries) :
    Valid dial.sweep.1.entries := by
  rw [sweep]
  split
  · exact valid
  · exact valid.strike dial.budget

end Valid

end Dial

end BoundedCache.Clock
