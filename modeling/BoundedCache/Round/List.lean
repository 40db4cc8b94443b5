import BoundedCache.Links.Chain

/-!
# Round lists

A round list keeps entries in the order in which they were linked, the most recent at the head.
Each entry carries the time of its last visit, and the list remembers when the last three rounds
of visits began. An entry that was last visited no later than the oldest of these times went
untouched for two full rounds, and may be given up. The search for such a victim starts at the
tail; the entries it passes were visited of late and move to the head together.
-/

namespace BoundedCache.Round

/-! ## Nodes -/

/-- An item with the time of its last visit. A node may be stored without being linked. -/
structure Node (α : Type) where
  item : α
  lastVisit : Nat
  links : ChainLinks := {}
  linked : Bool := false

/-- The largest 64-bit word stands for a missing node. -/
def missing : Nat := 0xffffffffffffffff

/-- A neighbour is shown by its slot. -/
def linkOutline (link : Option Nat) : Outline :=
  .ofNat (link.getD missing)

def Node.outline {α : Type} (shape : α → Outline) (node : Node α) : Outline :=
  .record "LruNode"
    [ ("item", shape node.item),
      ("last_visit_at", .ofNat node.lastVisit),
      ("prev", linkOutline node.links.prev),
      ("next", linkOutline node.links.next),
      ("linked", .ofBool node.linked) ]

/-- The links between head and tail. -/
def orderField {α : Type} : ChainField (Node α) where
  get node := node.links
  set links node := { node with links }
  get_set _ _ := rfl

/-! ## Headers -/

/-- The times at which the last three rounds began, the most recent first. -/
structure Headers where
  first : Nat := 0
  middle : Nat := 0
  last : Nat := 0
deriving DecidableEq

/-- Begins a round; the oldest time is dropped. -/
def Headers.push (headers : Headers) (time : Nat) : Headers :=
  ⟨time, headers.first, headers.middle⟩

/-! ## Lists -/

/-- Entries between head and tail, in the order in which they were linked. -/
structure RoundList (α : Type) where
  nodes : Slab (Node α)
  head : Option Nat
  tail : Option Nat
  headers : Headers
  /-- The entries that searches passed since one of them last began a round. -/
  walked : Nat
  /-- All entries that searches passed. -/
  scanned : Nat
  /-- All rounds that were begun. -/
  rounds : Nat

namespace RoundList

variable {α : Type}

def empty : RoundList α :=
  ⟨.empty, none, none, {}, 0, 0, 0⟩

/-- The same list without its entries. Headers and counts stay, except for the entries passed
since the last round. -/
def clear (list : RoundList α) : RoundList α :=
  { list with nodes := .empty, head := none, tail := none, walked := 0 }

/-- Begins a round at the given time. -/
def beginRound (list : RoundList α) (time : Nat) : RoundList α :=
  { list with headers := list.headers.push time, rounds := list.rounds + 1 }

/-- Stores an item without linking it and tells its slot. -/
def store (list : RoundList α) (item : α) (time : Nat) : RoundList α × Nat :=
  let (nodes, index) := list.nodes.insert { item, lastVisit := time }
  ({ list with nodes }, index)

/-- Empties the slot of an item and hands the item out. -/
def discard (list : RoundList α) (index : Nat) : RoundList α × Option α :=
  let (nodes, node) := list.nodes.erase index
  ({ list with nodes }, node.map Node.item)

/-! ## Steps on one node -/

/-- The result of a step that may meet a fault. A node can be emptied while it is linked, so a step
may meet the vacant slot halfway; the fault comes with the list as the step left it. -/
abbrev Attempt (α β : Type) := Except (Fault × RoundList α) β

/-- The result without the list that a fault left behind. -/
def Attempt.toChecked {β : Type} (attempt : Attempt α β) : Checked β :=
  attempt.mapError Prod.fst

/-- The node in a slot that is known to hold one. -/
@[inline] def fetch (list : RoundList α) (index : Nat) : Attempt α (Node α) :=
  match list.nodes.get? index with
  | none => .error (.vacantSlot index, list)
  | some node => .ok node

/-- Changes the node in a slot that is known to hold one. -/
@[inline] def modify (list : RoundList α) (index : Nat) (change : Node α → Node α) :
    Attempt α (RoundList α) :=
  match list.nodes.get? index with
  | none => .error (.vacantSlot index, list)
  | some node => .ok { list with nodes := list.nodes.write index (some (change node)) }

/-- Sets the time of an item's last visit. -/
def setVisit (list : RoundList α) (index time : Nat) : Attempt α (RoundList α) :=
  list.modify index fun node => { node with lastVisit := time }

/-- Sets what comes after a node. What comes after no node is the head. -/
def setNext (list : RoundList α) (next : Option Nat) : Option Nat → Attempt α (RoundList α)
  | none => .ok { list with head := next }
  | some index => list.modify index (orderField.withNext next)

/-- Sets what comes before a node. What comes before no node is the tail. -/
def setPrev (list : RoundList α) (prev : Option Nat) : Option Nat → Attempt α (RoundList α)
  | none => .ok { list with tail := prev }
  | some index => list.modify index (orderField.withPrev prev)

/-- Makes `right` the node after `left`, and `left` the node before `right`. -/
def join (list : RoundList α) (left right : Option Nat) : Attempt α (RoundList α) := do
  let list ← list.setNext right left
  list.setPrev left right

/-! ## Linking -/

/-- Links a stored node at the head. -/
def link (list : RoundList α) (index : Nat) : Attempt α (RoundList α) := do
  let first := list.head
  let list ← list.modify index fun node =>
    { node with links := ⟨none, first⟩, linked := true }
  let list ← list.setPrev (some index) first
  list.setNext (some index) none

/-- Takes a node off the list. A node that is not linked is left alone. -/
def unlink (list : RoundList α) (index : Nat) : Attempt α (RoundList α) := do
  let node ← list.fetch index
  if !node.linked then return list
  let list ← list.join node.links.prev node.links.next
  list.modify index fun node => { node with links := {}, linked := false }

/-- Moves a node to the head. A list without nodes has the missing node at its head. -/
def bringToHead (list : RoundList α) (index : Nat) : Attempt α (RoundList α) := do
  if list.head.getD missing = index then return list
  let list ← list.unlink index
  list.link index

/-! ## Victims -/

/-- Counts one entry that a search passed. Once `patience` entries were passed, a round begins at
that entry's last visit. -/
def pass (list : RoundList α) (patience lastVisit : Nat) : RoundList α :=
  let list := { list with scanned := list.scanned + 1, walked := list.walked + 1 }
  if patience ≤ list.walked then { list with walked := 0 }.beginRound lastVisit else list

/-- Takes a victim off the list and moves the entries behind it to the head, in their order. -/
def extractVictim (list : RoundList α) (victim : Nat) : Attempt α (RoundList α) := do
  let node ← list.fetch victim
  let last := list.tail
  let list ← list.unlink victim
  let some start := node.links.next | return list
  let passed ← list.fetch start
  let some before := passed.links.prev | return list
  let list ← list.join (some before) none
  let first := list.head
  let list ← list.join last first
  list.join none (some start)

/-- Looks for a victim from `index` towards the head, in at most `fuel` steps. -/
def searchFrom (patience : Nat) :
    Nat → RoundList α → Option Nat → Attempt α (RoundList α × Option Nat)
  | 0, list, _ => .ok (list, none)
  | _ + 1, list, none => .ok (list, none)
  | fuel + 1, list, some index => do
      let node ← list.fetch index
      if node.lastVisit ≤ list.headers.last then
        return (← list.extractVictim index, some index)
      searchFrom patience fuel (list.pass patience node.lastVisit) node.links.prev

/-- How many steps a search may take. A slot that is emptied and filled again while its neighbours
still point to it can close the links to a circle, but no search goes round for ever: a round that
a search begins is later than the one begun three rounds before it, and it begins at the last visit
of a stored node. So each of three interleaved rising sequences begins at most one round for each
slot, and fewer than `patience` entries are passed after the last of these rounds. -/
def searchBound (list : RoundList α) (patience : Nat) : Nat :=
  (3 * list.nodes.slots.size + 1) * max patience 1

/-- Looks for the entry nearest to the tail that was last visited no later than the oldest header,
and takes it off the list. Without such an entry the order stays as it is. -/
def selectVictim (list : RoundList α) (patience : Nat) : Attempt α (RoundList α × Option Nat) :=
  searchFrom patience (list.searchBound patience) list list.tail

/-! ## Text -/

def outline (list : RoundList α) : Outline :=
  .record "ThreeQLruList"
    [ ("walk_through", .ofNat list.walked),
      ("first_header_time", .ofNat list.headers.first),
      ("middle_header_time", .ofNat list.headers.middle),
      ("last_header_time", .ofNat list.headers.last) ]

end RoundList

end BoundedCache.Round
