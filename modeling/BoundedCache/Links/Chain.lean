import BoundedCache.Slab.Basic

/-!
# Chains

On a chain the first node has nothing before it and the last one nothing after it. As with rings,
a chain says where its links are kept in a node.
-/

namespace BoundedCache

/-- The neighbours of a node on a chain. -/
structure ChainLinks where
  prev : Option Nat := none
  next : Option Nat := none
deriving DecidableEq

/-- Where a node keeps the links of one chain. -/
structure ChainField (ν : Type) where
  get : ν → ChainLinks
  set : ChainLinks → ν → ν
  get_set : ∀ links node, get (set links node) = links

namespace ChainField

variable {ν : Type}

/-! ## One node -/

/-- The node with another node, or nothing, after it. -/
def withNext (field : ChainField ν) (next : Option Nat) (node : ν) : ν :=
  field.set { field.get node with next } node

/-- The node with another node, or nothing, before it. -/
def withPrev (field : ChainField ν) (prev : Option Nat) (node : ν) : ν :=
  field.set { field.get node with prev } node

@[simp] theorem get_withNext (field : ChainField ν) (next : Option Nat) (node : ν) :
    field.get (field.withNext next node) = ⟨(field.get node).prev, next⟩ :=
  field.get_set _ _

@[simp] theorem get_withPrev (field : ChainField ν) (prev : Option Nat) (node : ν) :
    field.get (field.withPrev prev node) = ⟨prev, (field.get node).next⟩ :=
  field.get_set _ _

/-! ## Steps on the slab -/

/-- Sets what comes after a node, if there is one. -/
def setNext (field : ChainField ν) (nodes : Slab ν) (next : Option Nat) :
    Option Nat → Checked (Slab ν)
  | none => .ok nodes
  | some index => nodes.modify index (field.withNext next)

/-- Sets what comes before a node, if there is one. -/
def setPrev (field : ChainField ν) (nodes : Slab ν) (prev : Option Nat) :
    Option Nat → Checked (Slab ν)
  | none => .ok nodes
  | some index => nodes.modify index (field.withPrev prev)

/-- Makes `right` the node after `left`, and `left` the node before `right`. Where one side is
missing, the other becomes an end of its chain. -/
def join (field : ChainField ν) (nodes : Slab ν) (left right : Option Nat) :
    Checked (Slab ν) := do
  let nodes ← field.setNext nodes right left
  field.setPrev nodes left right

/-- Puts a node in front of the chain that begins with `first`. -/
def pushFront (field : ChainField ν) (nodes : Slab ν) (first : Option Nat) (index : Nat) :
    Checked (Slab ν) := do
  let nodes ← field.join nodes none (some index)
  field.join nodes (some index) first

end ChainField

end BoundedCache
