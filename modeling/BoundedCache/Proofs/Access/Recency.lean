import BoundedCache.Proofs.Requests
import Mathlib.Data.List.Pairwise

/-!
# Lists in the order of last use

What a cache that drops the entry not used for longest means: the list of its entries, the one used
last in front. A lookup that finds its key moves the entry to the front, and a new key that finds
the list full takes the place of the last entry.
-/

namespace BoundedCache.Recency

variable {κ ν : Type}

/-! ## Lists and requests -/

/-- The list with room for one more entry. -/
def makeRoom (capacity : Nat) (entries : List (κ × ν)) : List (κ × ν) :=
  if entries.length < capacity then entries else entries.dropLast

theorem makeRoom_sublist (capacity : Nat) (entries : List (κ × ν)) :
    (makeRoom capacity entries).Sublist entries := by
  rw [makeRoom]
  split
  · exact List.Sublist.refl entries
  · exact List.dropLast_sublist entries

theorem length_makeRoom_lt {capacity : Nat} {entries : List (κ × ν)} (positive : 0 < capacity)
    (bounded : entries.length ≤ capacity) : (makeRoom capacity entries).length < capacity := by
  rw [makeRoom]
  split
  · assumption
  · rw [List.length_dropLast]
    omega

variable [BEq κ]

def lookup (entries : List (κ × ν)) (key : κ) : Option (κ × ν) :=
  entries.find? fun entry => entry.1 == key

/-- The entries for other keys. -/
def without (entries : List (κ × ν)) (key : κ) : List (κ × ν) :=
  entries.filter fun entry => !(entry.1 == key)

/-- What the list answers. -/
def answer (entries : List (κ × ν)) : CacheRequest κ ν → CacheAnswer ν
  | .get key => .value ((lookup entries key).map Prod.snd)
  | .put key _ => .value ((lookup entries key).map Prod.snd)
  | .remove key => .value ((lookup entries key).map Prod.snd)
  | .contains key => .held (lookup entries key).isSome
  | .size => .count entries.length
  | .clear => .cleared

/-- What becomes of the list. -/
def next (capacity : Nat) (entries : List (κ × ν)) : CacheRequest κ ν → List (κ × ν)
  | .get key => (lookup entries key).toList ++ without entries key
  | .put key value =>
      match lookup entries key with
      | none => (key, value) :: makeRoom capacity entries
      | some _ => (key, value) :: without entries key
  | .remove key => without entries key
  | .contains _ => entries
  | .size => entries
  | .clear => []

/-! ## Distinct keys -/

/-- No key is held twice. -/
def Distinct (entries : List (κ × ν)) : Prop :=
  entries.Pairwise fun first second => ¬ first.1 == second.1

theorem distinct_nil : Distinct ([] : List (κ × ν)) :=
  .nil

theorem Distinct.sublist {entries others : List (κ × ν)} (distinct : Distinct entries)
    (fewer : others.Sublist entries) : Distinct others :=
  List.Pairwise.sublist fewer distinct

section Lookups

variable {entries before after : List (κ × ν)} {entry : κ × ν} {key : κ}

theorem lookup_eq_none_iff :
    lookup entries key = none ↔ ∀ other ∈ entries, ¬ other.1 == key :=
  List.find?_eq_none

theorem key_of_lookup (found : lookup entries key = some entry) : entry.1 == key := by
  rw [lookup] at found
  have named := List.find?_some found
  exact named

theorem without_of_absent (absent : ∀ other ∈ entries, ¬ other.1 == key) :
    without entries key = entries := by
  rw [without, List.filter_eq_self]
  intro other member
  simpa using absent other member

variable [EquivBEq κ]

theorem Distinct.apart (distinct : Distinct (before ++ entry :: after)) (holds : entry.1 == key) :
    ∀ other ∈ before ++ after, ¬ other.1 == key := by
  obtain ⟨_, behind, apart⟩ := List.pairwise_append.1 distinct
  intro other member otherHolds
  rcases List.mem_append.1 member with inBefore | inAfter
  · exact apart other inBefore entry List.mem_cons_self
      (PartialEquivBEq.trans otherHolds (PartialEquivBEq.symm holds))
  · exact (List.pairwise_cons.1 behind).1 other inAfter
      (PartialEquivBEq.trans holds (PartialEquivBEq.symm otherHolds))

theorem lookup_middle (distinct : Distinct (before ++ entry :: after)) (holds : entry.1 == key) :
    lookup (before ++ entry :: after) key = some entry := by
  have absent : before.find? (fun other => other.1 == key) = none :=
    List.find?_eq_none.2 fun other member =>
      distinct.apart holds other (List.mem_append_left _ member)
  rw [lookup, List.find?_append, absent, Option.none_or, List.find?_cons, holds]

theorem without_middle (distinct : Distinct (before ++ entry :: after)) (holds : entry.1 == key) :
    without (before ++ entry :: after) key = before ++ after := by
  have apart := distinct.apart holds
  have others := without_of_absent apart
  rw [without, List.filter_append] at others ⊢
  rw [List.filter_cons_of_neg (by simpa using holds), others]

/-- Another entry for the key of one can take its place, in front of the others. -/
theorem Distinct.front (distinct : Distinct (before ++ entry :: after)) (holds : entry.1 == key)
    (value : ν) : Distinct ((key, value) :: (before ++ after)) := by
  refine List.pairwise_cons.2 ⟨fun other member same => ?_, distinct.sublist ?_⟩
  · exact distinct.apart holds other member (PartialEquivBEq.symm same)
  · exact (List.Sublist.refl before).append (List.sublist_cons_self entry after)

/-- A lookup finds nothing, or the list falls apart at the entry that it finds. -/
theorem Distinct.lookup_cases (distinct : Distinct entries) (key : κ) :
    (lookup entries key = none ∧ ∀ other ∈ entries, ¬ other.1 == key) ∨
    ∃ before entry after, entries = before ++ entry :: after ∧ entry.1 == key ∧
      lookup entries key = some entry ∧ without entries key = before ++ after := by
  cases found : lookup entries key with
  | none => exact .inl ⟨rfl, lookup_eq_none_iff.1 found⟩
  | some entry =>
      obtain ⟨before, after, rfl⟩ := List.append_of_mem (List.mem_of_find?_eq_some found)
      have holds := key_of_lookup found
      exact .inr ⟨before, entry, after, rfl, holds, rfl, without_middle distinct holds⟩

theorem Distinct.length_without (distinct : Distinct entries) (key : κ) :
    entries.length = (without entries key).length + (lookup entries key).toList.length := by
  rcases distinct.lookup_cases key with ⟨missed, absent⟩ |
    ⟨before, entry, after, rfl, _, found, others⟩
  · rw [missed, without_of_absent absent]
    rfl
  · rw [found, others]
    simp [Nat.add_assoc]

theorem lookup_congr {other : κ} (same : key == other) :
    lookup entries key = lookup entries other := by
  have agree : ∀ entry : κ × ν, (entry.1 == key) = (entry.1 == other) := fun entry =>
    Bool.eq_iff_iff.2 ⟨fun holds => PartialEquivBEq.trans holds same,
      fun holds => PartialEquivBEq.trans holds (PartialEquivBEq.symm same)⟩
  simp only [lookup, agree]

theorem lookup_without (entries : List (κ × ν)) (key other : κ) :
    lookup (without entries key) other =
      if key == other then none else lookup entries other := by
  by_cases same : key == other
  · rw [if_pos same, lookup_eq_none_iff]
    intro entry member holds
    obtain ⟨_, elsewhere⟩ := List.mem_filter.1 member
    simp [PartialEquivBEq.trans holds (PartialEquivBEq.symm same)] at elsewhere
  · have agree : ∀ entry : κ × ν,
        decide ((!(entry.1 == key)) = true ∧ (entry.1 == other) = true) = (entry.1 == other) := by
      intro entry
      cases holds : entry.1 == other with
      | false => simp
      | true =>
          have elsewhere : ¬ entry.1 == key := fun isKey =>
            same (PartialEquivBEq.trans (PartialEquivBEq.symm isKey) holds)
          simp [elsewhere]
    rw [if_neg same, lookup, without, List.find?_filter]
    simp only [agree, lookup]

theorem Distinct.front_without (distinct : Distinct entries) (key : κ) (value : ν) :
    Distinct ((key, value) :: without entries key) := by
  refine List.pairwise_cons.2 ⟨fun other member same => ?_, distinct.sublist List.filter_sublist⟩
  obtain ⟨_, elsewhere⟩ := List.mem_filter.1 member
  simp [PartialEquivBEq.symm same] at elsewhere

end Lookups

/-! ## Requests keep keys distinct -/

theorem Distinct.next [EquivBEq κ] {entries : List (κ × ν)} (distinct : Distinct entries)
    (capacity : Nat) (request : CacheRequest κ ν) :
    Distinct (next capacity entries request) := by
  cases request with
  | get key =>
      rcases distinct.lookup_cases key with ⟨missed, absent⟩ |
        ⟨before, entry, after, rfl, holds, found, others⟩
      · rw [Recency.next, missed, without_of_absent absent]
        exact distinct
      · rw [Recency.next, found, others]
        exact distinct.front (BEq.refl entry.1) entry.2
  | put key value =>
      rcases distinct.lookup_cases key with ⟨missed, absent⟩ |
        ⟨before, entry, after, rfl, holds, found, others⟩
      · rw [Recency.next, missed]
        have fewer := makeRoom_sublist capacity entries
        refine List.pairwise_cons.2 ⟨fun other member same => ?_, distinct.sublist fewer⟩
        exact absent other (fewer.subset member) (PartialEquivBEq.symm same)
      · rw [Recency.next, found]
        simp only [others]
        exact distinct.front holds value
  | remove key => exact distinct.sublist List.filter_sublist
  | contains key => exact distinct
  | size => exact distinct
  | clear => exact distinct_nil

end BoundedCache.Recency
