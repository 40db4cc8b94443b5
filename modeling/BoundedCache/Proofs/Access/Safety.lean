import BoundedCache.Proofs.Access.Ledger

/-!
# An access map does not fail

The sentinels of the handle list are never removed, so at least two slots are filled, and the
length of the list is told without them. What is removed is a value between them.
-/

namespace BoundedCache

variable {κ ν : Type}

/-! ## Handle lists -/

namespace HandleList

variable {α : Type} {list : HandleList α} {cells : List (Nat × α)}

/-- The sentinels are there to be left out of the length, and a value that is removed was there to
be counted off. -/
structure Safe (list : HandleList α) : Prop where
  length : list.length + 2 = list.nodes.occupied
  removes : ∀ {handle after value}, isSentinel handle = false →
    (list.nodes.get? handle).isSome → list.remove handle = .ok (after, value) →
      after.nodes.occupied + 1 = list.nodes.occupied

theorem Holds.safe (holds : list.Holds cells) : list.Safe where
  length := by rw [holds.length, holds.occupied]
  removes := by
    intro handle after value notSentinel stored removed
    obtain ⟨held, member⟩ := holds.mem_of_node notSentinel stored
    obtain ⟨before, behind, rfl⟩ := List.append_of_mem member
    obtain ⟨nodes, step, holdsAfter⟩ := holds.remove
    rw [removed] at step
    cases step
    rw [holdsAfter.occupied, holds.occupied, List.length_append, List.length_append,
      List.length_cons]
    omega

end HandleList

/-! ## Access maps -/

namespace AccessMap

variable [BEq κ] [Hashable κ]

/-- The states that a map passes through: those between two requests, and that of a put which has
made room for a new key. -/
inductive Passes (fresh : AccessMap κ ν) : AccessMap κ ν → Prop where
  | rests {map : AccessMap κ ν} (reached : books.Reaches fresh map) : Passes fresh map
  | makesRoom {map roomy : AccessMap κ ν} {key : κ} (reached : books.Reaches fresh map)
      (missed : map.index[key]? = none) (step : map.makeRoom = .ok roomy) : Passes fresh roomy

variable [EquivBEq κ] [LawfulHashable κ] {fresh map : AccessMap κ ν}

theorem Passes.intact {capacity : Capacity}
    (passes : Passes (empty capacity : AccessMap κ ν) map) : map.Intact := by
  have intact : ∀ {map : AccessMap κ ν}, books.Reaches (empty capacity) map → map.Intact :=
    fun reaches => (books.kept_of_reaches (fun request kept => Intact.accounted kept request)
      (intact_empty capacity) rfl reaches).1
  cases passes with
  | rests reached => exact intact reached
  | makesRoom reached missed step =>
      obtain ⟨entries, shows⟩ := intact reached
      obtain ⟨roomy, made, showsRoomy, _⟩ := shows.makeRoom
      rw [step] at made
      cases made
      exact ⟨_, showsRoomy⟩

theorem neverFails_empty (capacity : Capacity) :
    books.NeverFails (empty capacity : AccessMap κ ν) (Passes (empty capacity))
      fun map => map.entries.Safe := by
  refine books.neverFails_of_accounted (fun request kept => Intact.accounted kept request)
    (intact_empty capacity) rfl fun map passes => ?_
  obtain ⟨entries, shows⟩ := passes.intact
  obtain ⟨cells, holds, _⟩ := shows.laidOut
  exact holds.safe

end AccessMap

end BoundedCache
