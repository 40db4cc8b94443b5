import BoundedCache.Slab.Lemmas
import Mathlib.Data.List.Perm.Subperm
import Mathlib.Data.List.Range

/-!
# Well-formed slabs

In a well-formed slab the free slots are exactly the vacant ones, each listed once, and the number
of values is the number of the other slots. Filling and emptying a slot keep this, so a value is
never stored over another one. Steps that only change values are described by what they leave
visible: two slabs agree in a view of the values if every slot shows the same through it.
-/

namespace BoundedCache.Slab

variable {α β : Type}

/-- The free slots are the vacant ones, and all others are counted. -/
structure WellFormed (slab : Slab α) : Prop where
  freeDistinct : slab.free.Nodup
  memFree : ∀ index, index ∈ slab.free ↔ index < slab.slots.size ∧ slab.get? index = none
  counted : slab.occupied + slab.free.length = slab.slots.size

theorem wellFormed_empty : (empty : Slab α).WellFormed where
  freeDistinct := List.nodup_nil
  memFree index := by simp [empty]
  counted := rfl

theorem wellFormed_ofArray (values : Array α) : (ofArray values).WellFormed where
  freeDistinct := List.nodup_nil
  memFree index := by
    rw [get?_ofArray]
    simp [ofArray]
  counted := by simp [ofArray]

/-! ## Filling a slot -/

theorem get?_insert_snd {slab : Slab α} (wellFormed : slab.WellFormed) (value : α) :
    slab.get? (slab.insert value).2 = none := by
  cases head : slab.free with
  | nil =>
      rw [insert_of_full head]
      simp [get?]
  | cons index rest =>
      rw [insert_of_free head]
      exact ((wellFormed.memFree index).1 (by simp [head])).2

/-- The slot of the stored value holds it, and all other slots keep their value. -/
theorem get?_insert {slab : Slab α} (wellFormed : slab.WellFormed) (value : α) (other : Nat) :
    (slab.insert value).1.get? other =
      if other = (slab.insert value).2 then some value else slab.get? other := by
  cases head : slab.free with
  | nil =>
      rw [insert_of_full head]
      by_cases same : other = slab.slots.size
      · subst same
        simp [get?]
      · simp [get?, Array.getElem?_push, same]
  | cons index rest =>
      have inBounds := ((wellFormed.memFree index).1 (by simp [head])).1
      rw [insert_of_free head]
      exact get?_write inBounds (some value) other

@[simp] theorem occupied_insert (slab : Slab α) (value : α) :
    (slab.insert value).1.occupied = slab.occupied + 1 := by
  cases head : slab.free with
  | nil => rw [insert_of_full head]
  | cons index rest => rw [insert_of_free head]

theorem WellFormed.insert {slab : Slab α} (wellFormed : slab.WellFormed) (value : α) :
    (slab.insert value).1.WellFormed := by
  have held := get?_insert wellFormed value
  cases head : slab.free with
  | nil =>
      rw [insert_of_full head] at held ⊢
      dsimp only at held ⊢
      refine ⟨wellFormed.freeDistinct, fun index => ?_, ?_⟩
      · have before := wellFormed.memFree index
        simp only [head, List.not_mem_nil, false_iff, not_and] at before
        rw [held]
        simp only [head, List.not_mem_nil, Array.size_push, false_iff, not_and]
        intro inBounds
        by_cases last : index = slab.slots.size
        · simp [last]
        · rw [if_neg last]
          exact before (by omega)
      · have counted := wellFormed.counted
        simp only [head, List.length_nil, Array.size_push] at counted ⊢
        omega
  | cons index rest =>
      rw [insert_of_free head] at held ⊢
      have distinct := wellFormed.freeDistinct
      rw [head, List.nodup_cons] at distinct
      refine ⟨distinct.2, fun other => ?_, ?_⟩
      · have before := wellFormed.memFree other
        simp only [head, List.mem_cons] at before
        simp only [held, size_slots_write]
        by_cases same : other = index
        · subst same
          simp [distinct.1]
        · simpa [same] using before
      · have counted := wellFormed.counted
        simp only [head, List.length_cons, size_slots_write] at counted ⊢
        omega

/-! ## Emptying a slot -/

theorem length_le_size {slab : Slab α} {indices : List Nat} (distinct : indices.Nodup)
    (inBounds : ∀ index ∈ indices, index < slab.slots.size) :
    indices.length ≤ slab.slots.size := by
  have contained : indices ⊆ List.range slab.slots.size :=
    fun index member => List.mem_range.2 (inBounds index member)
  simpa using (List.subperm_of_subset distinct contained).length_le

theorem WellFormed.occupied_pos {slab : Slab α} (wellFormed : slab.WellFormed) {index : Nat}
    {value : α} (holds : slab.get? index = some value) : 0 < slab.occupied := by
  have notFree : index ∉ slab.free := by
    rw [wellFormed.memFree, holds]
    simp
  have bound : (index :: slab.free).length ≤ slab.slots.size := by
    refine length_le_size (List.nodup_cons.2 ⟨notFree, wellFormed.freeDistinct⟩) ?_
    intro other member
    rcases List.mem_cons.1 member with rfl | isFree
    · exact lt_size_of_get? holds
    · exact ((wellFormed.memFree other).1 isFree).1
  have counted := wellFormed.counted
  simp only [List.length_cons] at bound
  omega

theorem WellFormed.erase {slab : Slab α} (wellFormed : slab.WellFormed) (index : Nat) :
    (slab.erase index).1.WellFormed := by
  cases holds : slab.get? index with
  | none =>
      rw [erase_of_vacant holds]
      exact wellFormed
  | some value =>
      have left := get?_erase slab index
      have notFree : index ∉ slab.free := by
        rw [wellFormed.memFree, holds]
        simp
      have counted := wellFormed.counted
      have positive := wellFormed.occupied_pos holds
      simp only [Slab.erase, holds] at left ⊢
      refine ⟨List.nodup_cons.2 ⟨notFree, wellFormed.freeDistinct⟩, fun other => ?_, ?_⟩
      · simp only [left, List.mem_cons, size_slots_write]
        by_cases same : other = index
        · subst same
          simp [lt_size_of_get? holds]
        · simpa [same] using wellFormed.memFree other
      · simp only [List.length_cons, size_slots_write]
        omega

theorem occupied_erase {slab : Slab α} {index : Nat} {value : α}
    (holds : slab.get? index = some value) :
    (slab.erase index).1.occupied = slab.occupied - 1 := by
  simp [erase, holds]

/-! ## Counting the values -/

/-- There are as many values as distinct slots that hold one, or more. -/
theorem WellFormed.length_le_occupied {slab : Slab α} (wellFormed : slab.WellFormed)
    {indices : List Nat} (distinct : indices.Nodup)
    (filled : ∀ index ∈ indices, (slab.get? index).isSome) :
    indices.length ≤ slab.occupied := by
  have apart : ∀ index ∈ indices, index ∉ slab.free := by
    intro index member isFree
    have held := filled index member
    rw [((wellFormed.memFree index).1 isFree).2] at held
    contradiction
  have all : (indices ++ slab.free).Nodup :=
    List.nodup_append.2 ⟨distinct, wellFormed.freeDistinct,
      fun index member other isFree same => apart index member (same ▸ isFree)⟩
  have bound : (indices ++ slab.free).length ≤ slab.slots.size := by
    refine length_le_size all fun index member => ?_
    rcases List.mem_append.1 member with inIndices | isFree
    · obtain ⟨value, holds⟩ := Option.isSome_iff_exists.1 (filled index inIndices)
      exact lt_size_of_get? holds
    · exact ((wellFormed.memFree index).1 isFree).1
  have counted := wellFormed.counted
  rw [List.length_append] at bound
  omega

/-- Distinct slots that hold a value are all of them once there are as many as values. -/
theorem WellFormed.mem_of_isSome {slab : Slab α} (wellFormed : slab.WellFormed)
    {indices : List Nat} (distinct : indices.Nodup)
    (filled : ∀ index ∈ indices, (slab.get? index).isSome)
    (many : slab.occupied ≤ indices.length) {index : Nat} (holds : (slab.get? index).isSome) :
    index ∈ indices := by
  by_contra missing
  have more := wellFormed.length_le_occupied (List.nodup_cons.2 ⟨missing, distinct⟩)
    (List.forall_mem_cons.2 ⟨holds, filled⟩)
  rw [List.length_cons] at more
  omega

/-- The number of values is the number of slots that hold one. -/
theorem WellFormed.occupied_eq {slab : Slab α} (wellFormed : slab.WellFormed)
    {indices : List Nat} (distinct : indices.Nodup)
    (filled : ∀ index, index ∈ indices ↔ (slab.get? index).isSome) :
    slab.occupied = indices.length := by
  have few := wellFormed.length_le_occupied distinct fun index => (filled index).1
  have covered : List.range slab.slots.size ⊆ indices ++ slab.free := by
    intro index member
    rw [List.mem_append, filled, wellFormed.memFree]
    cases holds : slab.get? index with
    | none => exact .inr ⟨List.mem_range.1 member, rfl⟩
    | some value => exact .inl rfl
  have size := (List.subperm_of_subset List.nodup_range covered).length_le
  have counted := wellFormed.counted
  rw [List.length_range, List.length_append] at size
  omega

/-! ## Equal slabs -/

/-- Two slabs with the same slots are equal if they hold the same values. -/
theorem eq_of_get? {first second : Slab α} (free : first.free = second.free)
    (occupied : first.occupied = second.occupied)
    (size : first.slots.size = second.slots.size)
    (same : ∀ index, first.get? index = second.get? index) : first = second := by
  have slots : first.slots = second.slots := by
    refine Array.ext size fun index firstBound secondBound => ?_
    have held := same index
    rwa [get?, get?, Array.getElem?_eq_getElem firstBound, Array.getElem?_eq_getElem secondBound]
      at held
  cases first
  cases second
  cases free
  cases occupied
  cases slots
  rfl

/-! ## Slabs that agree in a view -/

/-- The same slots are filled, and every value looks the same through the view. -/
structure Agree (view : α → β) (before after : Slab α) : Prop where
  free : after.free = before.free
  occupied : after.occupied = before.occupied
  size : after.slots.size = before.slots.size
  seen : ∀ index, (after.get? index).map view = (before.get? index).map view

namespace Agree

variable {view : α → β} {before middle after : Slab α}

theorem refl (slab : Slab α) : Agree view slab slab :=
  ⟨rfl, rfl, rfl, fun _ => rfl⟩

theorem trans (first : Agree view before middle) (second : Agree view middle after) :
    Agree view before after where
  free := second.free.trans first.free
  occupied := second.occupied.trans first.occupied
  size := second.size.trans first.size
  seen index := (second.seen index).trans (first.seen index)

theorem get?_eq_none_iff (agree : Agree view before after) (index : Nat) :
    after.get? index = none ↔ before.get? index = none := by
  have seen := congrArg Option.isNone (agree.seen index)
  rw [Option.isNone_map, Option.isNone_map] at seen
  rw [← Option.isNone_iff_eq_none, ← Option.isNone_iff_eq_none, seen]

theorem isSome_get? (agree : Agree view before after) (index : Nat) :
    (after.get? index).isSome = (before.get? index).isSome := by
  simpa using congrArg Option.isSome (agree.seen index)

/-- Agreement says nothing about the view, so it carries over to a coarser one. -/
theorem comp {γ : Type} (agree : Agree view before after) (coarser : β → γ) :
    Agree (coarser ∘ view) before after where
  free := agree.free
  occupied := agree.occupied
  size := agree.size
  seen index := by
    simpa [Option.map_map] using congrArg (Option.map coarser) (agree.seen index)

theorem wellFormed (agree : Agree view before after) (wellFormed : before.WellFormed) :
    after.WellFormed where
  freeDistinct := agree.free ▸ wellFormed.freeDistinct
  memFree index := by
    rw [agree.free, agree.size, agree.get?_eq_none_iff]
    exact wellFormed.memFree index
  counted := by
    rw [agree.free, agree.occupied, agree.size]
    exact wellFormed.counted

end Agree

/-- Writing a filled slot changes nothing that the old and the new value show alike. -/
theorem agree_write {view : α → β} {slab : Slab α} {index : Nat} {old new : α}
    (holds : slab.get? index = some old) (alike : view new = view old) :
    Agree view slab (slab.write index (some new)) where
  free := rfl
  occupied := rfl
  size := size_slots_write _ _ _
  seen other := by
    rw [get?_write (lt_size_of_get? holds)]
    by_cases same : other = index
    · simp [same, holds, alike]
    · simp [same]

theorem agree_modify {view : α → β} {slab changed : Slab α} {index : Nat} {change : α → α}
    (modified : slab.modify index change = .ok changed)
    (alike : ∀ value, view (change value) = view value) : Agree view slab changed := by
  cases holds : slab.get? index with
  | none =>
      rw [modify_of_vacant holds] at modified
      contradiction
  | some value =>
      rw [modify_of_get? holds] at modified
      cases modified
      exact agree_write holds (alike value)

end BoundedCache.Slab
