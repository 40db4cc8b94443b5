import BoundedCache.Proofs.Clock.Dial

/-!
# What a dial holds

To its users a dial is a map from keys under hash codes to values. Lookups and sweeps that find no
victim leave this map alone; a put, a removal and a victim change it at one key.
-/

namespace BoundedCache.Clock

variable {κ ν : Type} [BEq κ]

/-! ## Entries -/

/-- The value of a key under a hash code. -/
def valueIn (entries : List (Entry κ ν)) (hash : UInt32) (key : κ) : Option ν :=
  (entries.find? (·.holds hash key)).map Entry.value

theorem valueIn_eq_none {entries : List (Entry κ ν)} {hash : UInt32} {key : κ}
    (absent : ∀ entry ∈ entries, ¬ entry.holds hash key) : valueIn entries hash key = none := by
  rw [valueIn, List.find?_eq_none.2 absent, Option.map_none]

theorem valueIn_append (entries others : List (Entry κ ν)) (hash : UInt32) (key : κ) :
    valueIn (entries ++ others) hash key =
      (valueIn entries hash key).or (valueIn others hash key) := by
  rw [valueIn, valueIn, valueIn, List.find?_append]
  cases entries.find? (·.holds hash key) <;> simp

theorem valueIn_revise {entries : List (Entry κ ν)} {hash otherHash : UInt32} {key otherKey : κ}
    (change : Entry κ ν → Entry κ ν) (sameHash : ∀ entry, (change entry).hash = entry.hash)
    (sameKey : ∀ entry, (change entry).key = entry.key) :
    valueIn (reviseEntry change hash key entries) otherHash otherKey =
      (entries.find? (·.holds otherHash otherKey)).map fun entry =>
        if entry.holds hash key then (change entry).value else entry.value := by
  have unmoved : ((·.holds otherHash otherKey) ∘ fun entry : Entry κ ν =>
      if entry.holds hash key then change entry else entry) = (·.holds otherHash otherKey) := by
    funext entry
    by_cases holds : entry.holds hash key
    · rw [Function.comp_apply, if_pos holds, Entry.holds, Entry.holds, sameHash, sameKey]
    · rw [Function.comp_apply, if_neg holds]
  rw [valueIn, reviseEntry, List.find?_map, unmoved, Option.map_map]
  congr 1
  funext entry
  by_cases holds : entry.holds hash key <;> simp [holds]

section Keys

variable [PartialEquivBEq κ] {entries : List (Entry κ ν)} {hash otherHash : UInt32}
  {key otherKey : κ}

theorem Valid.valueIn_eq_some_iff (valid : Valid entries) {value : ν} :
    valueIn entries hash key = some value ↔
      ∃ entry ∈ entries, entry.holds hash key ∧ entry.value = value := by
  constructor
  · intro found
    obtain ⟨entry, isFound, isValue⟩ := Option.map_eq_some_iff.1 found
    have holds := List.find?_some isFound
    exact ⟨entry, List.mem_of_find?_eq_some isFound, holds, isValue⟩
  · rintro ⟨entry, member, holds, rfl⟩
    cases found : entries.find? (·.holds hash key) with
    | none => exact absurd holds (List.find?_eq_none.1 found entry member)
    | some other =>
        have otherHolds := List.find?_some found
        have same := valid.unique (List.mem_of_find?_eq_some found) member otherHolds holds
        rw [valueIn, found, same, Option.map_some]

theorem Entry.holds_congr (sameHash : hash = otherHash) (sameKey : key == otherKey)
    (entry : Entry κ ν) : entry.holds hash key = entry.holds otherHash otherKey := by
  subst sameHash
  rw [Entry.holds, Entry.holds, Bool.eq_iff_iff]
  simp only [Bool.and_eq_true, beq_iff_eq]
  refine and_congr_right fun _ => ⟨fun holds => PartialEquivBEq.trans holds sameKey, ?_⟩
  exact fun holds => PartialEquivBEq.trans holds (PartialEquivBEq.symm sameKey)

theorem Entry.eq_of_holds {entry : Entry κ ν} (holds : entry.holds hash key)
    (otherHolds : entry.holds otherHash otherKey) : hash = otherHash ∧ key == otherKey := by
  rw [Entry.holds_iff] at *
  exact ⟨holds.1.symm.trans otherHolds.1,
    PartialEquivBEq.trans (PartialEquivBEq.symm holds.2) otherHolds.2⟩

end Keys

/-! ## Dials -/

namespace Dial

variable {dial : Dial κ ν} {hash otherHash : UInt32} {key otherKey : κ} {value : ν}

/-- The value that a dial holds for a key under a hash code. -/
def value? (dial : Dial κ ν) (hash : UInt32) (key : κ) : Option ν :=
  valueIn dial.entries hash key

theorem value?_eq (dial : Dial κ ν) (hash : UInt32) (key : κ) :
    dial.value? hash key = (dial.find? hash key).map Entry.value := rfl

/-! ### Answers -/

theorem answer_get : (dial.get hash key).2 = dial.value? hash key := by
  rw [get, value?_eq]
  cases dial.find? hash key <;> rfl

theorem answer_put : (dial.put hash key value).2 = dial.value? hash key := by
  rw [put, value?_eq]
  cases dial.find? hash key <;> rfl

theorem answer_remove : (dial.remove hash key).2 = dial.value? hash key := by
  rw [remove, value?_eq]
  cases dial.find? hash key <;> rfl

/-! ### Keys and sizes afterwards -/

variable {Allowed : UInt32 → κ → Prop}

/-- What holds of all hash codes and keys of a dial goes on to hold of them. -/
theorem names_get (all : ∀ entry ∈ dial.entries, Allowed entry.hash entry.key) :
    ∀ entry ∈ (dial.get hash key).1.entries, Allowed entry.hash entry.key := by
  rw [get]
  cases dial.find? hash key with
  | none => exact all
  | some found =>
      refine List.forall_mem_map.2 fun entry member => ?_
      by_cases holds : entry.holds hash key
      · rw [if_pos holds]
        exact all entry member
      · rw [if_neg holds]
        exact all entry member

theorem names_put (all : ∀ entry ∈ dial.entries, Allowed entry.hash entry.key)
    (allowed : Allowed hash key) :
    ∀ entry ∈ (dial.put hash key value).1.entries, Allowed entry.hash entry.key := by
  rw [put]
  cases dial.find? hash key with
  | none => exact List.forall_mem_append.2 ⟨all, by simpa using allowed⟩
  | some found =>
      refine List.forall_mem_map.2 fun entry member => ?_
      by_cases holds : entry.holds hash key
      · rw [if_pos holds]
        exact all entry member
      · rw [if_neg holds]
        exact all entry member

theorem names_remove (all : ∀ entry ∈ dial.entries, Allowed entry.hash entry.key) :
    ∀ entry ∈ (dial.remove hash key).1.entries, Allowed entry.hash entry.key := by
  rw [remove]
  cases dial.find? hash key with
  | none => exact all
  | some found => exact fun entry member => all entry (List.mem_filter.1 member).1

theorem length_get : (dial.get hash key).1.entries.length = dial.entries.length := by
  rw [get]
  cases dial.find? hash key with
  | none => rfl
  | some found => exact List.length_map _

/-- A put adds an entry exactly if the key was not held. -/
theorem length_put (dial : Dial κ ν) (hash : UInt32) (key : κ) (value : ν) :
    (dial.put hash key value).1.entries.length =
      dial.entries.length + if (dial.put hash key value).2.isSome then 0 else 1 := by
  rw [put]
  cases dial.find? hash key with
  | none => exact List.length_append
  | some found => exact List.length_map _

theorem entries_put_of_missing (missing : dial.value? hash key = none) (value : ν) :
    (dial.put hash key value).1.entries = dial.entries ++ [⟨hash, key, value, 1⟩] := by
  have notFound : dial.find? hash key = none := Option.map_eq_none_iff.1 missing
  rw [put, notFound]
  rfl

theorem mem_put_of_missing (missing : dial.value? hash key = none) (value : ν) :
    ⟨hash, key, value, 1⟩ ∈ (dial.put hash key value).1.entries := by
  rw [entries_put_of_missing missing]
  exact List.mem_append_right _ (List.mem_singleton.2 rfl)

/-! ### Visits afterwards -/

/-- A lookup visits the entry for its key and changes no other. -/
theorem exists_of_mem_get {entry : Entry κ ν} (member : entry ∈ (dial.get hash key).1.entries) :
    ∃ old ∈ dial.entries, entry = if old.holds hash key then old.visit else old := by
  rw [get] at member
  cases found : dial.find? hash key with
  | none =>
      rw [found] at member
      exact ⟨entry, member, (if_neg (absent_of_find? found entry member)).symm⟩
  | some _ =>
      rw [found] at member
      obtain ⟨old, oldMember, same⟩ := List.mem_map.1 member
      exact ⟨old, oldMember, same.symm⟩

omit [BEq κ] in
/-- A sweep takes at most one visit of an entry that stays. -/
theorem exists_of_mem_sweep {entry : Entry κ ν} (member : entry ∈ dial.sweep.1.entries) :
    ∃ old ∈ dial.entries, entry.key = old.key ∧ old.visits ≤ entry.visits + 1 := by
  obtain ⟨front, ahead, found, split, turned, _⟩ := dial.sweep_split
  rw [turned] at member
  rw [split]
  rcases List.mem_append.1 member with inAhead | aged
  · exact ⟨entry, List.mem_append_right _ inAhead, rfl, Nat.le_succ _⟩
  · obtain ⟨old, inFront, rfl⟩ := List.mem_map.1 aged
    refine ⟨old, List.mem_append_left _ (List.mem_append_left _ inFront), rfl, ?_⟩
    simp only [Entry.age]
    omega

omit [BEq κ] in
/-- A victim had at most one visit. -/
theorem exists_of_victim {victim : Entry κ ν} (evicted : dial.sweep.2 = some victim) :
    ∃ old ∈ dial.entries, victim.key = old.key ∧ old.visits ≤ 1 := by
  obtain ⟨front, ahead, found, split, _, finds, _, light⟩ := dial.sweep_split
  obtain ⟨old, rfl, rfl⟩ := Option.map_eq_some_iff.1 (finds.symm.trans evicted)
  exact ⟨old, by simp [split], rfl, light old rfl⟩

/-! ### Values afterwards -/

theorem value?_get :
    (dial.get hash key).1.value? otherHash otherKey = dial.value? otherHash otherKey := by
  rw [get]
  cases dial.find? hash key with
  | none => rfl
  | some entry =>
      change valueIn (reviseEntry Entry.visit hash key dial.entries) otherHash otherKey = _
      rw [valueIn_revise Entry.visit (fun _ => rfl) fun _ => rfl]
      simp [Entry.visit, value?, valueIn]

variable [PartialEquivBEq κ]

theorem value?_put_same (sameHash : hash = otherHash) (sameKey : key == otherKey) :
    (dial.put hash key value).1.value? otherHash otherKey = some value := by
  have sameHolds : (fun entry : Entry κ ν => entry.holds hash key) =
      (·.holds otherHash otherKey) := funext fun entry => Entry.holds_congr sameHash sameKey entry
  rw [put]
  cases found : dial.find? hash key with
  | none =>
      have absent : dial.value? otherHash otherKey = none := by
        rw [value?_eq, find?, ← sameHolds, ← find?, found, Option.map_none]
      change valueIn (dial.entries ++ [⟨hash, key, value, 1⟩]) otherHash otherKey = _
      rw [valueIn_append, ← value?, absent]
      simp [valueIn, Entry.holds, sameHash, sameKey]
  | some entry =>
      have holds := List.find?_some found
      change valueIn (reviseEntry (fun entry => { entry.visit with value }) hash key
        dial.entries) otherHash otherKey = _
      rw [valueIn_revise (fun entry => { entry.visit with value }) (fun _ => rfl) fun _ => rfl,
        ← sameHolds, ← find?, found, Option.map_some, if_pos holds]

theorem value?_put_other (other : ¬ (hash = otherHash ∧ key == otherKey)) :
    (dial.put hash key value).1.value? otherHash otherKey = dial.value? otherHash otherKey := by
  rw [put]
  cases dial.find? hash key with
  | none =>
      have absent : valueIn [(⟨hash, key, value, 1⟩ : Entry κ ν)] otherHash otherKey = none :=
        valueIn_eq_none (by simpa [Entry.holds] using other)
      change valueIn (dial.entries ++ [⟨hash, key, value, 1⟩]) otherHash otherKey = _
      rw [valueIn_append, absent, Option.or_none, value?]
  | some entry =>
      change valueIn (reviseEntry (fun entry => { entry.visit with value }) hash key
        dial.entries) otherHash otherKey = _
      rw [valueIn_revise (fun entry => { entry.visit with value }) (fun _ => rfl) fun _ => rfl,
        value?_eq, find?]
      cases found : dial.entries.find? (·.holds otherHash otherKey) with
      | none => rfl
      | some entry =>
          have otherHolds := List.find?_some found
          have spared : ¬ entry.holds hash key := fun holds =>
            other (Entry.eq_of_holds holds otherHolds)
          rw [Option.map_some, Option.map_some, if_neg spared]

theorem value?_remove_same (sameHash : hash = otherHash) (sameKey : key == otherKey) :
    (dial.remove hash key).1.value? otherHash otherKey = none := by
  have sameHolds : (fun entry : Entry κ ν => entry.holds hash key) =
      (·.holds otherHash otherKey) := funext fun entry => Entry.holds_congr sameHash sameKey entry
  rw [remove]
  cases found : dial.find? hash key with
  | none => rw [value?_eq, find?, ← sameHolds, ← find?, found, Option.map_none]
  | some entry =>
      refine valueIn_eq_none fun entry member holds => ?_
      have dropped := (List.mem_filter.1 member).2
      rw [Entry.holds_congr sameHash sameKey, holds] at dropped
      contradiction

theorem value?_remove_other (other : ¬ (hash = otherHash ∧ key == otherKey)) :
    (dial.remove hash key).1.value? otherHash otherKey = dial.value? otherHash otherKey := by
  rw [remove]
  cases dial.find? hash key with
  | none => rfl
  | some entry =>
      change valueIn (dropEntry hash key dial.entries) otherHash otherKey = _
      rw [valueIn, dropEntry, List.find?_filter, value?_eq, find?]
      congr 2
      funext entry
      by_cases holds : entry.holds otherHash otherKey
      · have spared : ¬ entry.holds hash key := fun held =>
          other (Entry.eq_of_holds held holds)
        simp [holds, spared]
      · simp [holds]

theorem value?_sweep_victim (valid : Valid dial.entries) {victim : Entry κ ν}
    (evicted : dial.sweep.2 = some victim) (holds : victim.holds hash key) :
    dial.sweep.1.value? hash key = none := by
  obtain ⟨front, ahead, found, split, turned, finds, _, _⟩ := dial.sweep_split
  obtain ⟨entry, rfl, rfl⟩ := Option.map_eq_some_iff.1 (finds.symm.trans evicted)
  have distinct := valid.distinct
  rw [split, Option.toList_some, List.append_assoc] at distinct
  obtain ⟨_, behind, apart⟩ := List.pairwise_append.1 distinct
  rw [value?, turned]
  refine valueIn_eq_none fun other member otherHolds => ?_
  rcases List.mem_append.1 member with inAhead | aged
  · exact (List.pairwise_cons.1 behind).1 other inAhead (Entry.holds_of_holds holds otherHolds)
  · obtain ⟨original, inFront, rfl⟩ := List.mem_map.1 aged
    exact apart original inFront entry (List.mem_cons_self)
      (Entry.holds_of_holds otherHolds holds)

/-- A sweep keeps all values but that of its victim. -/
theorem value?_sweep_other (valid : Valid dial.entries)
    (spared : ∀ victim ∈ dial.sweep.2, ¬ victim.holds hash key) :
    dial.sweep.1.value? hash key = dial.value? hash key := by
  have validAfter := valid_sweep valid
  obtain ⟨front, ahead, found, split, turned, finds, _, _⟩ := dial.sweep_split
  rw [finds] at spared
  refine Option.ext fun value => ?_
  rw [value?, value?, validAfter.valueIn_eq_some_iff, valid.valueIn_eq_some_iff, turned, split]
  constructor
  · rintro ⟨other, member, holds, isValue⟩
    rcases List.mem_append.1 member with inAhead | aged
    · exact ⟨other, List.mem_append_right _ inAhead, holds, isValue⟩
    · obtain ⟨original, inFront, rfl⟩ := List.mem_map.1 aged
      exact ⟨original, List.mem_append_left _ (List.mem_append_left _ inFront), holds, isValue⟩
  · rintro ⟨entry, member, holds, isValue⟩
    rcases List.mem_append.1 member with inStroke | inAhead
    · rcases List.mem_append.1 inStroke with inFront | isFound
      · exact ⟨entry.age, List.mem_append_right _ (List.mem_map_of_mem inFront), holds, isValue⟩
      · have found := Option.mem_toList.1 isFound
        exact absurd holds (spared entry.age (Option.mem_map_of_mem Entry.age found))
    · exact ⟨entry, List.mem_append_left _ inAhead, holds, isValue⟩

/-! ### Removals -/

/-- A removal drops one entry exactly if the key was held. -/
theorem length_remove (valid : Valid dial.entries) (hash : UInt32) (key : κ) :
    (dial.remove hash key).1.entries.length + (dial.remove hash key).2.toList.length =
      dial.entries.length := by
  rw [remove]
  cases found : dial.find? hash key with
  | none => rfl
  | some entry =>
      obtain ⟨holds, before, after, split, _⟩ := List.find?_eq_some_iff_append.1 found
      rw [split] at valid
      have dropped := dropEntry_middle holds (valid.apart holds)
      change (dropEntry hash key dial.entries).length + 1 = dial.entries.length
      rw [split, dropped]
      simp
      omega

end Dial

end BoundedCache.Clock
