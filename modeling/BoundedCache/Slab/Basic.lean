import BoundedCache.Outline

/-!
# Slabs

A slab keeps values in numbered slots. A slot keeps its number until it is emptied; emptied slots
are handed out again, the one emptied last first, before a new slot is made. Structures that link
values by slot number are built on a slab, so reading a vacant slot is a fault and says so.
-/

namespace BoundedCache

/-! ## Faults -/

/-- Why a step could not be carried out. -/
inductive Fault where
  /-- A slot that holds no value was read or written. -/
  | vacantSlot (index : Nat)
  /-- A position lies beyond the end of an array. -/
  | outOfRange (index size : Nat)
deriving DecidableEq

def Fault.message : Fault → String
  | vacantSlot index => "arena slot " ++ toString index ++ " is vacant"
  | outOfRange index size =>
      "index out of bounds: the len is " ++ toString size ++
        " but the index is " ++ toString index

/-- The result of a step that may meet a fault. A fault leaves no new state behind. -/
abbrev Checked := Except Fault

/-! ## Slabs -/

/-- Values in numbered slots. -/
structure Slab (α : Type) where
  slots : Array (Option α)
  /-- The slots without a value, the one emptied last in front. -/
  free : List Nat
  /-- The number of slots with a value. -/
  occupied : Nat

namespace Slab

variable {α : Type}

def empty : Slab α :=
  ⟨#[], [], 0⟩

/-- A slab whose slots hold the given values in their order. -/
def ofArray (values : Array α) : Slab α :=
  ⟨values.map some, [], values.size⟩

/-- The value in a slot, if it holds one. -/
def get? (slab : Slab α) (index : Nat) : Option α :=
  slab.slots[index]?.join

/-- Writes the content of one slot. -/
@[inline] def write (slab : Slab α) (index : Nat) (content : Option α) : Slab α :=
  { slab with slots := slab.slots.setIfInBounds index content }

/-- Stores a value in the slot emptied last, or in a new slot, and tells its number. -/
def insert (slab : Slab α) (value : α) : Slab α × Nat :=
  match slab.free with
  | index :: rest =>
      let occupied := slab.occupied + 1
      ({ slab.write index (some value) with free := rest, occupied }, index)
  | [] =>
      let index := slab.slots.size
      ({ slab with slots := slab.slots.push (some value), occupied := slab.occupied + 1 }, index)

/-- Empties a slot and hands out its value. A vacant slot is left alone. -/
def erase (slab : Slab α) (index : Nat) : Slab α × Option α :=
  match slab.get? index with
  | none => (slab, none)
  | some value =>
      let free := index :: slab.free
      let occupied := slab.occupied - 1
      ({ slab.write index none with free, occupied }, some value)

/-- Replaces the value in a slot and hands out the old one. A vacant slot is left alone. -/
def replace (slab : Slab α) (index : Nat) (value : α) : Slab α × Option α :=
  match slab.get? index with
  | none => (slab, none)
  | some old => (slab.write index (some value), some old)

/-- The value in a slot that is known to hold one. -/
def fetch (slab : Slab α) (index : Nat) : Checked α :=
  match slab.get? index with
  | none => .error (.vacantSlot index)
  | some value => .ok value

/-- Changes the value in a slot that is known to hold one. -/
def modify (slab : Slab α) (index : Nat) (change : α → α) : Checked (Slab α) :=
  match slab.get? index with
  | none => .error (.vacantSlot index)
  | some value => .ok (slab.write index (some (change value)))

/-- The free slots are shown in the order in which they were emptied. -/
def outline (shape : α → Outline) (slab : Slab α) : Outline :=
  .record "Arena"
    [ ("slots", .ofList (.ofOption shape) slab.slots.toList),
      ("free_list", .ofList .ofNat slab.free.reverse),
      ("len", .ofNat slab.occupied) ]

end Slab

end BoundedCache
