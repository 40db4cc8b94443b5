import BoundedCache.Slab.Lemmas

/-!
# Rings

Nodes of a slab are chained by slot number in both directions. On a ring every node has a
neighbour on either side; an empty ring is an anchor that is its own neighbour. A node may lie on
several rings at once, so each ring says where its links are kept in a node.
-/

namespace BoundedCache

/-- The neighbours of a node on a ring. -/
structure Links where
  prev : Nat
  next : Nat
deriving DecidableEq

/-- The links of a node that is alone on its ring. -/
def Links.alone (index : Nat) : Links :=
  ⟨index, index⟩

/-- Where a node keeps the links of one ring. -/
structure LinkField (ν : Type) where
  get : ν → Links
  set : Links → ν → ν
  get_set : ∀ links node, get (set links node) = links

namespace LinkField

variable {ν : Type}

/-! ## One node -/

/-- The node with another node after it. -/
def withNext (field : LinkField ν) (next : Nat) (node : ν) : ν :=
  field.set { field.get node with next } node

/-- The node with another node before it. -/
def withPrev (field : LinkField ν) (prev : Nat) (node : ν) : ν :=
  field.set { field.get node with prev } node

@[simp] theorem get_withNext (field : LinkField ν) (next : Nat) (node : ν) :
    field.get (field.withNext next node) = ⟨(field.get node).prev, next⟩ :=
  field.get_set _ _

@[simp] theorem get_withPrev (field : LinkField ν) (prev : Nat) (node : ν) :
    field.get (field.withPrev prev node) = ⟨prev, (field.get node).next⟩ :=
  field.get_set _ _

/-! ## Steps on the slab -/

/-- Makes `right` the node after `left`, and `left` the node before `right`. -/
def join (field : LinkField ν) (nodes : Slab ν) (left right : Nat) : Checked (Slab ν) := do
  let nodes ← nodes.modify left (field.withNext right)
  nodes.modify right (field.withPrev left)

/-- Puts a node right after `anchor`. -/
def insertAfter (field : LinkField ν) (nodes : Slab ν) (anchor index : Nat) :
    Checked (Slab ν) := do
  let follower := (field.get (← nodes.fetch anchor)).next
  let nodes ← field.join nodes anchor index
  field.join nodes index follower

/-- Takes a node off its ring by joining its neighbours. -/
def detach (field : LinkField ν) (nodes : Slab ν) (index : Nat) : Checked (Slab ν) := do
  let links := field.get (← nodes.fetch index)
  field.join nodes links.prev links.next

/-- Takes a node off its ring and puts it back right after `anchor`. -/
def moveAfter (field : LinkField ν) (nodes : Slab ν) (anchor index : Nat) :
    Checked (Slab ν) := do
  let nodes ← field.detach nodes index
  field.insertAfter nodes anchor index

/-! ## What joining does -/

/-- What joining `left` and `right` makes of the node in a slot. -/
def joined (field : LinkField ν) (left right index : Nat) (node : ν) : ν :=
  let node := if index = left then field.withNext right node else node
  if index = right then field.withPrev left node else node

/-- Two nodes that are stored can be joined. -/
theorem join_eq_ok (field : LinkField ν) {nodes : Slab ν} {left right : Nat}
    (leftHeld : (nodes.get? left).isSome) (rightHeld : (nodes.get? right).isSome) :
    ∃ result, field.join nodes left right = .ok result := by
  obtain ⟨first, leftHolds⟩ := Option.isSome_iff_exists.1 leftHeld
  obtain ⟨second, rightHolds⟩ := Option.isSome_iff_exists.1 rightHeld
  have leftModified := Slab.modify_of_get? leftHolds (field.withNext right)
  have rightStillHolds := Slab.get?_of_modify leftModified right
  rw [rightHolds, Option.map_some] at rightStillHolds
  have rightModified := Slab.modify_of_get? rightStillHolds (field.withPrev left)
  exact ⟨_, by simpa only [join, leftModified, bind, Except.bind] using rightModified⟩

/-- Joining two nodes changes these two nodes and no other. -/
theorem get?_join (field : LinkField ν) {nodes result : Slab ν} {left right : Nat}
    (step : field.join nodes left right = .ok result) (index : Nat) :
    result.get? index = (nodes.get? index).map (field.joined left right index) := by
  simp only [join, bind, Except.bind] at step
  split at step
  · contradiction
  · rename_i middle leftModified
    rw [Slab.get?_of_modify step, Slab.get?_of_modify leftModified]
    cases nodes.get? index <;> by_cases atLeft : index = left <;>
      by_cases atRight : index = right <;> simp [joined, atLeft, atRight]

end LinkField

end BoundedCache
