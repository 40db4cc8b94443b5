import BoundedCache.Proofs.Access.Safety
import BoundedCache.Proofs.Slots
import BoundedCache.Proofs.Storage

/-!
# The slots of an access map

An access map makes a slot only for a new entry that finds all slots filled. It makes room before it
stores the entry, so it never needs more slots than its capacity and the two sentinels.
-/

namespace BoundedCache

/-! ## Handle lists -/

namespace HandleList

variable {α : Type} {list after : HandleList α} {handle : Nat} {value : α}

theorem size_slots_empty (capacity : Capacity) :
    (empty capacity : HandleList α).nodes.slots.size = 2 :=
  Array.size_map

/-- A value that is added fills a free slot or, without one, a new slot. -/
theorem size_slots_of_add (wellFormed : list.nodes.WellFormed) {added : Option Nat}
    (step : list.add value = .ok (after, added)) :
    after.nodes.slots.size = max list.nodes.slots.size after.nodes.occupied := by
  rw [add] at step
  split at step
  · cases step
    exact wellFormed.size_of_same rfl
  · obtain ⟨nodes, inserted, step⟩ := exists_of_bind_eq_ok step
    cases step
    have alike := LinkField.alike_of_insertAfter inserted
    have occupied := alike.occupied.trans (Slab.occupied_insert _ _)
    rw [occupied]
    exact alike.size.trans (wellFormed.size_insert _)

theorem size_slots_of_remove {removed : Option α}
    (step : list.remove handle = .ok (after, removed)) :
    after.nodes.slots.size = list.nodes.slots.size := by
  rw [remove] at step
  split at step
  · cases step
    rfl
  · obtain ⟨nodes, detached, step⟩ := exists_of_bind_eq_ok step
    cases step
    exact (Slab.size_slots_erase _ _).trans (LinkField.alike_of_detach detached).size

theorem size_slots_of_popBack {removed : Option α} (step : list.popBack = .ok (after, removed)) :
    after.nodes.slots.size = list.nodes.slots.size := by
  obtain ⟨sentinel, _, step⟩ := exists_of_bind_eq_ok step
  split at step
  · cases step
    rfl
  · exact size_slots_of_remove step

theorem size_slots_of_bringToFront (step : list.bringToFront handle = .ok after) :
    after.nodes.slots.size = list.nodes.slots.size := by
  rw [bringToFront] at step
  split at step
  · cases step
    rfl
  · obtain ⟨sentinel, _, step⟩ := exists_of_bind_eq_ok step
    split at step
    · cases step
      rfl
    · obtain ⟨nodes, moved, step⟩ := exists_of_bind_eq_ok step
      cases step
      exact (LinkField.alike_of_moveAfter moved).size

theorem size_slots_replace (list : HandleList α) (handle : Nat) (value : α) :
    (list.replace handle value).1.nodes.slots.size = list.nodes.slots.size := by
  rw [replace]
  split
  · rfl
  · split
    · rfl
    · exact Slab.size_slots_replace _ _ _

end HandleList

/-! ## Access maps -/

namespace AccessMap

variable {κ ν : Type} [BEq κ] [Hashable κ] {map after : AccessMap κ ν} {key : κ} {value : ν}

theorem size_slots_of_use {found : Option Nat} (step : map.use key = .ok (after, found)) :
    after.entries.nodes.slots.size = map.entries.nodes.slots.size := by
  rw [use] at step
  split at step
  · cases step
    rfl
  · obtain ⟨entries, moved, step⟩ := exists_of_bind_eq_ok step
    cases step
    exact HandleList.size_slots_of_bringToFront moved

theorem size_slots_of_get {found : Option ν} (step : map.get key = .ok (after, found)) :
    after.entries.nodes.slots.size = map.entries.nodes.slots.size := by
  obtain ⟨⟨used, handle⟩, uses, step⟩ := exists_of_bind_eq_ok step
  cases step
  exact size_slots_of_use uses

theorem size_slots_of_exchange {old : Option ν}
    (step : map.exchange key value = .ok (after, old)) :
    after.entries.nodes.slots.size = map.entries.nodes.slots.size := by
  obtain ⟨⟨used, handle⟩, uses, step⟩ := exists_of_bind_eq_ok step
  have same := size_slots_of_use uses
  dsimp only at step
  split at step
  · cases step
    exact same
  · split at step
    · cases step
      exact same
    · cases step
      exact (HandleList.size_slots_replace _ _ _).trans same

theorem size_slots_of_remove {removed : Option ν}
    (step : map.remove key = .ok (after, removed)) :
    after.entries.nodes.slots.size = map.entries.nodes.slots.size := by
  rw [remove] at step
  split at step
  · cases step
    rfl
  · obtain ⟨⟨entries, entry⟩, removes, step⟩ := exists_of_bind_eq_ok step
    cases step
    exact HandleList.size_slots_of_remove removes

theorem size_slots_of_popOldest {removed : Option (κ × ν)}
    (step : map.popOldest = .ok (after, removed)) :
    after.entries.nodes.slots.size = map.entries.nodes.slots.size := by
  obtain ⟨⟨entries, entry⟩, pops, step⟩ := exists_of_bind_eq_ok step
  have same := HandleList.size_slots_of_popBack pops
  cases entry with
  | none =>
      cases step
      exact same
  | some entry =>
      cases step
      exact same

theorem size_slots_of_makeRoom (step : map.makeRoom = .ok after) :
    after.entries.nodes.slots.size = map.entries.nodes.slots.size := by
  rw [makeRoom] at step
  split at step
  · obtain ⟨⟨popped, dropped⟩, pops, step⟩ := exists_of_bind_eq_ok step
    have same := size_slots_of_popOldest pops
    dsimp only at step
    split at step
    · cases step
      exact same
    · cases step
      exact same
  · cases step
    rfl

theorem size_slots_of_add (wellFormed : map.entries.nodes.WellFormed)
    (step : map.add key value = .ok after) :
    after.entries.nodes.slots.size =
      max map.entries.nodes.slots.size after.entries.nodes.occupied := by
  obtain ⟨⟨entries, added⟩, adds, step⟩ := exists_of_bind_eq_ok step
  have size := HandleList.size_slots_of_add wellFormed adds
  cases added with
  | none =>
      cases step
      exact size
  | some handle =>
      cases step
      exact size

/-! ## Storage -/

/-- The state amid a request: that of a put which has made room for a new key. -/
inductive Amid (map : AccessMap κ ν) : AccessRequest κ ν → AccessMap κ ν → Prop where
  | put {key : κ} {value : ν} {roomy : AccessMap κ ν} (missed : map.index[key]? = none)
      (drops : map.makeRoom = .ok roomy) : Amid map (.cached (.put key value)) roomy

/-- An access map keeps its entries and two sentinels in slots. -/
def storage : Storage (AccessMap κ ν) (AccessRequest κ ν) (AccessAnswer κ ν) where
  serve := AccessMap.respond
  Amid := Amid
  clears := AccessRequest.isClear
  held := AccessMap.size
  slots map := map.entries.nodes.slots.size
  reserved := 2

/-- The map shows entries and has this capacity. -/
def Stocks (capacity : Capacity) (map : AccessMap κ ν) : Prop :=
  ∃ entries, map.Shows entries ∧ map.capacity = capacity

variable {entries : List (κ × ν)} {capacity : Capacity}

namespace Shows

theorem wellFormed (shows : map.Shows entries) : map.entries.nodes.WellFormed := by
  obtain ⟨cells, holds, _⟩ := shows.laidOut
  exact holds.wellFormed

theorem needs (shows : map.Shows entries) : storage.needs map = map.entries.nodes.occupied := by
  obtain ⟨cells, holds, _, rfl⟩ := shows.laidOut
  have size := shows.size
  rw [List.length_map] at size
  simp only [storage, Storage.needs, AccessMap.size]
  rw [size, holds.occupied, Nat.add_comm]

theorem room (shows : map.Shows entries) : storage.needs map ≤ storage.slots map :=
  shows.needs ▸ shows.wellFormed.occupied_le

variable [EquivBEq κ] [LawfulHashable κ]

/-- Room is made before a slot is needed, and slots are made for the entries that there are in the
end. -/
theorem grows_of_put (shows : map.Shows entries) {others : List (κ × ν)}
    (showsAfter : after.Shows others) {old : Option ν}
    (step : map.put key value = .ok (after, old)) :
    storage.Grows (storage.During map (.cached (.put key value)) after) map after := by
  rw [AccessMap.put] at step
  split at step
  · rename_i handle found
    obtain ⟨moved, moves, step⟩ := exists_of_bind_eq_ok step
    cases step
    have same := HandleList.size_slots_of_bringToFront moves
    refine .of_same shows.room showsAfter.room
      ((HandleList.size_slots_replace _ _ _).trans same) ?_
    rintro passed ⟨missed, _⟩
    cases found.symm.trans missed
  · obtain ⟨roomy, drops, step⟩ := exists_of_bind_eq_ok step
    obtain ⟨grown, adds, step⟩ := exists_of_bind_eq_ok step
    cases step
    obtain ⟨same, made, showsRoomy, _⟩ := shows.makeRoom
    cases drops.symm.trans made
    have kept := size_slots_of_makeRoom drops
    have size : storage.slots after = max (storage.slots map) (storage.needs after) := by
      rw [showsAfter.needs]
      exact (size_slots_of_add showsRoomy.wellFormed adds).trans (by rw [kept]; rfl)
    -- The oldest entry goes before the new one gets a slot, so no state amid the put needs more.
    refine .of_size shows.room ?_ size
    rintro passed ⟨_, dropsToo⟩
    cases drops.symm.trans dropsToo
    exact ⟨showsRoomy.room, kept.trans_le (size ▸ Nat.le_max_left _ _)⟩

end Shows

section Requests

variable [EquivBEq κ] [LawfulHashable κ]

/-- Every request either clears the slots of a map or grows them. -/
theorem reuses : (storage : Storage (AccessMap κ ν) _ _).Reuses (Stocks capacity) where
  room := by
    rintro map ⟨entries, shows, _⟩
    exact shows.room
  serves := by
    rintro map request ⟨entries, shows, rfl⟩
    obtain ⟨after, served, showsAfter, sameCapacity⟩ := shows.respond request
    generalize Recency.reply entries request = answer at served
    refine ⟨after, answer, served, ⟨_, showsAfter, sameCapacity⟩, fun clearsNot => ?_,
      fun clears => ?_⟩
    · have of_same : after.entries.nodes.slots.size = map.entries.nodes.slots.size →
          (∀ passed, ¬ Amid map request passed) →
          storage.Grows (storage.During map request after) map after :=
        .of_same shows.room showsAfter.room
      cases request with
      | cached request =>
          obtain ⟨⟨next, answer⟩, step, ends⟩ := exists_of_bind_eq_ok served
          cases ends
          cases request with
          | get key =>
              obtain ⟨⟨used, value⟩, gets, ends⟩ := exists_of_bind_eq_ok step
              cases ends
              exact of_same (size_slots_of_get gets) nofun
          | put key value =>
              obtain ⟨⟨stored, old⟩, puts, ends⟩ := exists_of_bind_eq_ok step
              cases ends
              exact shows.grows_of_put showsAfter puts
          | remove key =>
              obtain ⟨⟨rest, value⟩, removes, ends⟩ := exists_of_bind_eq_ok step
              cases ends
              exact of_same (size_slots_of_remove removes) nofun
          | contains | size =>
              cases step
              exact of_same rfl nofun
          | clear => contradiction
      | exchange key value =>
          obtain ⟨⟨next, old⟩, exchanges, ends⟩ := exists_of_bind_eq_ok served
          cases ends
          exact of_same (size_slots_of_exchange exchanges) nofun
      | peek key =>
          cases served
          exact of_same rfl nofun
      | popOldest =>
          obtain ⟨⟨next, entry⟩, pops, ends⟩ := exists_of_bind_eq_ok served
          cases ends
          exact of_same (size_slots_of_popOldest pops) nofun
      | oldest | list =>
          obtain ⟨_, _, ends⟩ := exists_of_bind_eq_ok served
          cases ends
          exact of_same rfl nofun
    · match request with
      | .cached .clear =>
          cases served
          exact ⟨(HandleList.size_slots_empty _).trans showsAfter.needs.symm, nofun⟩

theorem bounded :
    (storage : Storage (AccessMap κ ν) _ _).Bounded (Stocks capacity) (capacity.val + 2) := by
  have few : ∀ {map : AccessMap κ ν} {entries : List (κ × ν)}, map.Shows entries →
      storage.needs map ≤ map.capacity.val + 2 := by
    intro map entries shows
    have few := shows.length_le
    rw [← shows.size] at few
    exact (Nat.add_comm 2 _).trans_le (Nat.add_le_add_right few 2)
  rintro map ⟨entries, shows, rfl⟩
  refine ⟨few shows, ?_⟩
  rintro request roomy ⟨_, drops⟩
  obtain ⟨same, made, showsRoomy, sameCapacity, _⟩ := shows.makeRoom
  cases drops.symm.trans made
  exact sameCapacity ▸ few showsRoomy

theorem economical_empty (capacity : Capacity) :
    storage.Economical (empty capacity : AccessMap κ ν) ∧
      storage.Within (empty capacity : AccessMap κ ν) (capacity.val + 2) := by
  have shows : (empty capacity : AccessMap κ ν).Shows [] := shows_empty capacity
  have stocks : (empty capacity : AccessMap κ ν).Stocks capacity := ⟨[], shows, rfl⟩
  have few : storage.slots (empty capacity : AccessMap κ ν) = 2 := HandleList.size_slots_empty _
  exact ⟨reuses.economical stocks (few.trans shows.needs.symm),
    reuses.within bounded stocks (few.trans_le (Nat.le_add_left 2 _))⟩

end Requests

end AccessMap

end BoundedCache
