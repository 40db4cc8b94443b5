import BoundedCache.Links.Chain
import BoundedCache.Proofs.Links.Ring

/-!
# Numbers of slots

A slab makes a slot only for a value that finds all slots filled. Emptying a slot gives none up, and
whatever a step on a ring or a chain does to the links, it writes slots that hold a node already.
-/

namespace BoundedCache

/-! ## Slabs -/

namespace Slab

variable {α : Type} {slab next : Slab α}

theorem WellFormed.occupied_le (wellFormed : slab.WellFormed) :
    slab.occupied ≤ slab.slots.size := by
  have counted := wellFormed.counted
  omega

/-- Where no slot is made, none was needed. -/
theorem WellFormed.size_of_same (wellFormed : next.WellFormed)
    (same : next.slots.size = slab.slots.size) :
    next.slots.size = max slab.slots.size next.occupied := by
  have room := wellFormed.occupied_le
  omega

/-- A new slot is made only when all are filled. -/
theorem WellFormed.size_insert (wellFormed : slab.WellFormed) (value : α) :
    (slab.insert value).1.slots.size = max slab.slots.size (slab.occupied + 1) := by
  have counted := wellFormed.counted
  cases head : slab.free with
  | nil =>
      rw [head, List.length_nil] at counted
      rw [insert_of_full head]
      simp only [Array.size_push]
      omega
  | cons index rest =>
      rw [head, List.length_cons] at counted
      rw [insert_of_free head]
      simp only [size_slots_write]
      omega

@[simp] theorem size_slots_erase (slab : Slab α) (index : Nat) :
    (slab.erase index).1.slots.size = slab.slots.size := by
  cases holds : slab.get? index with
  | none => rw [erase_of_vacant holds]
  | some value => simp only [erase, holds, size_slots_write]

@[simp] theorem size_slots_replace (slab : Slab α) (index : Nat) (value : α) :
    (slab.replace index value).1.slots.size = slab.slots.size := by
  cases holds : slab.get? index with
  | none => simp only [replace, holds]
  | some old => simp only [replace, holds, size_slots_write]

/-- The same slots are filled. -/
abbrev Alike (before after : Slab α) : Prop :=
  Agree (fun _ => ()) before after

theorem alike_of_modify {index : Nat} {change : α → α}
    (modified : slab.modify index change = .ok next) : slab.Alike next :=
  agree_modify modified fun _ => rfl

end Slab

variable {ν : Type} {nodes result : Slab ν}

/-! ## Rings -/

namespace LinkField

variable {field : LinkField ν} {anchor index left right : Nat}

theorem alike_of_join (step : field.join nodes left right = .ok result) :
    nodes.Alike result :=
  join_agree step fun _ _ => rfl

theorem alike_of_insertAfter (step : field.insertAfter nodes anchor index = .ok result) :
    nodes.Alike result := by
  obtain ⟨node, _, step⟩ := exists_of_bind_eq_ok step
  obtain ⟨middle, first, second⟩ := exists_of_bind_eq_ok step
  exact (alike_of_join first).trans (alike_of_join second)

theorem alike_of_detach (step : field.detach nodes index = .ok result) :
    nodes.Alike result := by
  obtain ⟨node, _, step⟩ := exists_of_bind_eq_ok step
  exact alike_of_join step

theorem alike_of_moveAfter (step : field.moveAfter nodes anchor index = .ok result) :
    nodes.Alike result := by
  obtain ⟨middle, detached, inserted⟩ := exists_of_bind_eq_ok step
  exact (alike_of_detach detached).trans (alike_of_insertAfter inserted)

end LinkField

/-! ## Chains -/

namespace ChainField

variable {field : ChainField ν} {first left right neighbour side : Option Nat} {index : Nat}

theorem alike_of_setNext (step : field.setNext nodes neighbour side = .ok result) :
    nodes.Alike result := by
  cases side with
  | none =>
      cases step
      exact .refl nodes
  | some index => exact Slab.alike_of_modify step

theorem alike_of_setPrev (step : field.setPrev nodes neighbour side = .ok result) :
    nodes.Alike result := by
  cases side with
  | none =>
      cases step
      exact .refl nodes
  | some index => exact Slab.alike_of_modify step

theorem alike_of_join (step : field.join nodes left right = .ok result) :
    nodes.Alike result := by
  obtain ⟨middle, first, second⟩ := exists_of_bind_eq_ok step
  exact (alike_of_setNext first).trans (alike_of_setPrev second)

theorem alike_of_pushFront (step : field.pushFront nodes first index = .ok result) :
    nodes.Alike result := by
  obtain ⟨middle, first, second⟩ := exists_of_bind_eq_ok step
  exact (alike_of_join first).trans (alike_of_join second)

end ChainField

end BoundedCache
