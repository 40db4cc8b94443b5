import BoundedCache.Links.Ring
import BoundedCache.Sizing

/-!
# Handle lists

A handle list holds a bounded number of values, the one added or moved last in front. Adding a
value yields a handle, by which the value is read, replaced, moved or removed until it is gone.
The values stand between two sentinels without a value, so every value has a neighbour on either
side.
-/

namespace BoundedCache

/-- A value between its neighbours; a sentinel has no value. -/
structure HandleNode (α : Type) where
  value : Option α
  links : Links

/-- A bounded sequence of values, each under a handle. -/
structure HandleList (α : Type) where
  capacity : Capacity
  nodes : Slab (HandleNode α)

namespace HandleList

variable {α : Type}

/-- The handle of the sentinel in front of all values. -/
def front : Nat := 0

/-- The handle of the sentinel behind all values. -/
def rear : Nat := 1

def isSentinel (handle : Nat) : Bool :=
  handle == front || handle == rear

def linkField : LinkField (HandleNode α) where
  get node := node.links
  set links node := { node with links }
  get_set _ _ := rfl

/-- The list without values. -/
def empty (capacity : Capacity) : HandleList α where
  capacity := capacity
  nodes := .ofArray #[⟨none, ⟨front, rear⟩⟩, ⟨none, ⟨front, rear⟩⟩]

def length (list : HandleList α) : Nat :=
  list.nodes.occupied - 2

def isFull (list : HandleList α) : Bool :=
  list.length == list.capacity.val

/-- The same list without its values. -/
def clear (list : HandleList α) : HandleList α :=
  empty list.capacity

/-! ## Reading -/

/-- The value under a handle. A sentinel has none. -/
def get? (list : HandleList α) (handle : Nat) : Option α :=
  if isSentinel handle then none
  else (list.nodes.get? handle).bind HandleNode.value

/-- The value at the back. -/
def last? (list : HandleList α) : Checked (Option α) := do
  let sentinel ← list.nodes.fetch rear
  return list.get? sentinel.links.prev

/-- The values from a handle to the back, read in at most `fuel` steps. -/
def valuesFrom (nodes : Slab (HandleNode α)) : Nat → Nat → Checked (List α)
  | 0, _ => .ok []
  | fuel + 1, handle =>
      if handle = rear then .ok []
      else do
        let node ← nodes.fetch handle
        match node.value with
        | none => return []
        | some value => return value :: (← valuesFrom nodes fuel node.links.next)

/-- The values from front to back. A list has fewer values than slots, so the steps suffice. -/
def toList (list : HandleList α) : Checked (List α) := do
  let sentinel ← list.nodes.fetch front
  valuesFrom list.nodes list.nodes.slots.size sentinel.links.next

/-! ## Changing -/

/-- Adds a value in front and tells its handle, unless the list is full. -/
def add (list : HandleList α) (value : α) : Checked (HandleList α × Option Nat) := do
  if list.isFull then return (list, none)
  let (nodes, handle) := list.nodes.insert ⟨some value, ⟨front, front⟩⟩
  let nodes ← linkField.insertAfter nodes front handle
  return ({ list with nodes }, some handle)

/-- Removes the value under a handle and hands it out. Sentinels and vacant handles are left
alone. -/
def remove (list : HandleList α) (handle : Nat) : Checked (HandleList α × Option α) := do
  if isSentinel handle || (list.nodes.get? handle).isNone then return (list, none)
  let nodes ← linkField.detach list.nodes handle
  let (nodes, node) := nodes.erase handle
  return ({ list with nodes }, node.bind HandleNode.value)

/-- Removes the value at the back and hands it out. -/
def popBack (list : HandleList α) : Checked (HandleList α × Option α) := do
  let sentinel ← list.nodes.fetch rear
  if sentinel.links.prev = front then return (list, none)
  list.remove sentinel.links.prev

/-- Moves the value under a handle to the front. Sentinels are left alone; a vacant handle is a
fault. -/
def bringToFront (list : HandleList α) (handle : Nat) : Checked (HandleList α) := do
  if isSentinel handle then return list
  let sentinel ← list.nodes.fetch front
  if sentinel.links.next = handle then return list
  return { list with nodes := ← linkField.moveAfter list.nodes front handle }

/-- Replaces the value under a handle and hands out the old one. Sentinels and vacant handles are
left alone. -/
def replace (list : HandleList α) (handle : Nat) (value : α) : HandleList α × Option α :=
  if isSentinel handle then (list, none)
  else
    match list.nodes.get? handle with
    | none => (list, none)
    | some node =>
        let (nodes, old) := list.nodes.replace handle { node with value := some value }
        ({ list with nodes }, old.bind HandleNode.value)

/-! ## Text -/

def outline (shape : α → Outline) (list : HandleList α) : Checked Outline := do
  return .record "List"
    [ ("cap", .ofNat list.capacity.val),
      ("len", .ofNat list.length),
      ("values", .ofList shape (← list.toList)) ]

end HandleList

end BoundedCache
