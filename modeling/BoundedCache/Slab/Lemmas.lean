import BoundedCache.Slab.Basic

/-!
# What a slab holds after each operation

Every operation is described by what the slots hold afterwards: the slot it names changes, all
others keep their value.
-/

namespace BoundedCache.Slab

variable {α : Type}

/-! ## Reading -/

@[simp] theorem get?_empty (index : Nat) : (empty : Slab α).get? index = none := by
  simp [empty, get?]

theorem get?_eq_some_iff {slab : Slab α} {index : Nat} {value : α} :
    slab.get? index = some value ↔ slab.slots[index]? = some (some value) := by
  simp [get?, Option.join_eq_some_iff]

theorem lt_size_of_get? {slab : Slab α} {index : Nat} {value : α}
    (holds : slab.get? index = some value) : index < slab.slots.size := by
  have found := get?_eq_some_iff.1 holds
  exact (Array.getElem?_eq_some_iff.1 found).1

theorem get?_ofArray (values : Array α) (index : Nat) :
    (ofArray values).get? index = values[index]? := by
  simp only [get?, ofArray, Array.getElem?_map]
  cases values[index]? <;> rfl

theorem fetch_eq_ok_iff {slab : Slab α} {index : Nat} {value : α} :
    slab.fetch index = .ok value ↔ slab.get? index = some value := by
  unfold fetch
  split <;> simp_all

/-! ## Writing one slot -/

@[simp] theorem write_free (slab : Slab α) (index : Nat) (content : Option α) :
    (slab.write index content).free = slab.free := rfl

@[simp] theorem write_occupied (slab : Slab α) (index : Nat) (content : Option α) :
    (slab.write index content).occupied = slab.occupied := rfl

@[simp] theorem size_slots_write (slab : Slab α) (index : Nat) (content : Option α) :
    (slab.write index content).slots.size = slab.slots.size := by
  simp [write]

/-- Writing a slot that exists changes that slot and no other. -/
theorem get?_write {slab : Slab α} {index : Nat} (inBounds : index < slab.slots.size)
    (content : Option α) (other : Nat) :
    (slab.write index content).get? other =
      if other = index then content else slab.get? other := by
  by_cases same : other = index
  · subst same
    simp [get?, write, inBounds]
  · have different : index ≠ other := fun equality => same equality.symm
    simp [get?, write, same, Array.getElem?_setIfInBounds_ne different]

theorem modify_of_get? {slab : Slab α} {index : Nat} {value : α}
    (holds : slab.get? index = some value) (change : α → α) :
    slab.modify index change = .ok (slab.write index (some (change value))) := by
  simp [modify, holds]

theorem modify_of_vacant {slab : Slab α} {index : Nat}
    (vacant : slab.get? index = none) (change : α → α) :
    slab.modify index change = .error (.vacantSlot index) := by
  simp [modify, vacant]

/-- A change reaches the slot it names, and all other slots keep their value. -/
theorem get?_of_modify {slab changed : Slab α} {index : Nat} {change : α → α}
    (modified : slab.modify index change = .ok changed) (other : Nat) :
    changed.get? other =
      (slab.get? other).map fun value => if other = index then change value else value := by
  cases holds : slab.get? index with
  | none =>
      rw [modify_of_vacant holds] at modified
      contradiction
  | some value =>
      rw [modify_of_get? holds] at modified
      cases modified
      rw [get?_write (lt_size_of_get? holds)]
      by_cases same : other = index
      · simp [same, holds]
      · simp [same]

/-! ## Emptying a slot -/

theorem erase_of_vacant {slab : Slab α} {index : Nat}
    (vacant : slab.get? index = none) : slab.erase index = (slab, none) := by
  simp [erase, vacant]

theorem erase_snd (slab : Slab α) (index : Nat) :
    (slab.erase index).2 = slab.get? index := by
  unfold erase
  split <;> simp_all

/-- After a slot is emptied it is vacant, and all other slots keep their value. -/
theorem get?_erase (slab : Slab α) (index other : Nat) :
    (slab.erase index).1.get? other =
      if other = index then none else slab.get? other := by
  cases holds : slab.get? index with
  | none =>
      rw [erase_of_vacant holds]
      by_cases same : other = index
      · simp [same, holds]
      · simp [same]
  | some value =>
      simp only [erase, holds]
      exact get?_write (lt_size_of_get? holds) none other

/-! ## Filling a slot -/

theorem insert_of_free {slab : Slab α} {index : Nat} {rest : List Nat}
    (head : slab.free = index :: rest) (value : α) :
    slab.insert value =
      ({ slab.write index (some value) with free := rest, occupied := slab.occupied + 1 },
        index) := by
  simp [insert, head]

theorem insert_of_full {slab : Slab α} (full : slab.free = []) (value : α) :
    slab.insert value =
      ({ slab with slots := slab.slots.push (some value), occupied := slab.occupied + 1 },
        slab.slots.size) := by
  simp [insert, full]

end BoundedCache.Slab
