import BoundedCache.Proofs.Clock.Dial
import BoundedCache.Proofs.Links.Ring

/-!
# The layout of a clock table

A clock table in use is laid out as a list of cells, each an entry with its slot, in the order in
which the hand meets them. The ring leads through these slots backwards. The slots of each bucket
lie on the ring of that bucket, and no slot is filled but those of the cells and the anchors.
Every step on a table is described by the cells that it leaves.
-/

namespace BoundedCache.Clock

variable {κ ν : Type}

/-! ## Cells -/

/-- An entry with its slot. -/
abbrev Cell (κ ν : Type) := Nat × Entry κ ν

/-- The entry in a slot. Vacant slots, anchors and the hand have none. -/
def entryAt (nodes : Slab (Node κ ν)) (index : Nat) : Option (Entry κ ν) :=
  (nodes.get? index).bind Node.entry

theorem entryAt_eq_some_iff {nodes : Slab (Node κ ν)} {index : Nat} {entry : Entry κ ν} :
    entryAt nodes index = some entry ↔
      ∃ node, nodes.get? index = some node ∧ node.entry = some entry := by
  simp [entryAt, Option.bind_eq_some_iff]

theorem entryAt_of_agree {before after : Slab (Node κ ν)}
    (agree : Slab.Agree Node.entry before after) (index : Nat) :
    entryAt after index = entryAt before index := by
  have joined : ∀ nodes : Slab (Node κ ν),
      entryAt nodes index = ((nodes.get? index).map Node.entry).join := by
    intro nodes
    cases held : nodes.get? index <;> simp [entryAt, held]
  rw [joined, joined, agree.seen]

/-! ## Layouts -/

/-- How the slots of a table with `buckets` buckets are filled and linked: `cells` are the entries
in the order in which the hand meets them, `chains` the slots of each bucket. -/
structure Layout [BEq κ] (buckets : Nat) (nodes : Slab (Node κ ν)) (cells : List (Cell κ ν))
    (chains : Nat → List Nat) : Prop where
  wellFormed : nodes.WellFormed
  positive : 0 < buckets
  anchored : ∀ index ≤ buckets, entryAt nodes index = none
  held : ∀ cell ∈ cells, entryAt nodes cell.1 = some cell.2
  stored : ∀ index, (nodes.get? index).isSome →
    index ≤ buckets ∨ ∃ entry, (index, entry) ∈ cells
  ring : Path (ringField.Adjacent nodes) buckets (cells.map Prod.fst).reverse buckets
  chain : ∀ bucket < buckets, Path (bucketField.Adjacent nodes) bucket (chains bucket) bucket
  chained : ∀ bucket < buckets, ∀ index, index ∈ chains bucket ↔
    ∃ entry, (index, entry) ∈ cells ∧ entry.hash.toNat % buckets = bucket
  distinct : ∀ first ∈ cells, ∀ second ∈ cells,
    first.2.holds second.2.hash second.2.key → first = second

namespace Layout

variable [BEq κ] {buckets : Nat} {nodes : Slab (Node κ ν)} {cells : List (Cell κ ν)}
  {chains : Nat → List Nat}

theorem slots_nodup (layout : Layout buckets nodes cells chains) :
    (cells.map Prod.fst).Nodup :=
  List.nodup_reverse.1 layout.ring.inner_nodup

theorem node_of_mem (layout : Layout buckets nodes cells chains) {index : Nat}
    {entry : Entry κ ν} (member : (index, entry) ∈ cells) :
    ∃ node, nodes.get? index = some node ∧ node.entry = some entry :=
  entryAt_eq_some_iff.1 (layout.held _ member)

theorem entry_unique (layout : Layout buckets nodes cells chains) {index : Nat}
    {first second : Entry κ ν} (firstMember : (index, first) ∈ cells)
    (secondMember : (index, second) ∈ cells) : first = second := by
  have firstHeld := layout.held (index, first) firstMember
  have secondHeld := layout.held (index, second) secondMember
  exact Option.some.inj (firstHeld.symm.trans secondHeld)

theorem above (layout : Layout buckets nodes cells chains) {index : Nat} {entry : Entry κ ν}
    (member : (index, entry) ∈ cells) : buckets < index := by
  by_contra notAbove
  have noEntry := layout.anchored index (by omega)
  have hasEntry := layout.held _ member
  simp [noEntry] at hasEntry

theorem hand_isSome (layout : Layout buckets nodes cells chains) :
    (nodes.get? buckets).isSome :=
  LinkField.path_first_isSome layout.ring

theorem bucket_lt (layout : Layout buckets nodes cells chains) (hash : UInt32) :
    hash.toNat % buckets < buckets :=
  Nat.mod_lt _ layout.positive

theorem mem_chain (layout : Layout buckets nodes cells chains) {index : Nat}
    {entry : Entry κ ν} (member : (index, entry) ∈ cells) :
    index ∈ chains (entry.hash.toNat % buckets) :=
  (layout.chained _ (layout.bucket_lt entry.hash) index).2 ⟨entry, member, rfl⟩

theorem bucket_eq_of_mem_chain (layout : Layout buckets nodes cells chains) {bucket index : Nat}
    {entry : Entry κ ν} (inBounds : bucket < buckets) (member : (index, entry) ∈ cells)
    (onChain : index ∈ chains bucket) : entry.hash.toNat % buckets = bucket := by
  obtain ⟨other, otherMember, bucketOther⟩ := (layout.chained bucket inBounds index).1 onChain
  rw [layout.entry_unique member otherMember]
  exact bucketOther

/-- The nodes on the rings of two buckets are different ones. -/
theorem chains_disjoint (layout : Layout buckets nodes cells chains) {first second : Nat}
    (firstBound : first < buckets) (secondBound : second < buckets) (different : first ≠ second) :
    ∀ index ∈ first :: chains first ++ [first],
      index ∉ second :: chains second ++ [second] := by
  have onChain : ∀ bucket < buckets, ∀ index ∈ chains bucket, buckets < index := by
    intro bucket inBounds index member
    obtain ⟨entry, entryMember, _⟩ := (layout.chained bucket inBounds index).1 member
    exact layout.above entryMember
  intro index firstMember secondMember
  simp only [List.cons_append, List.mem_cons, List.mem_append, List.not_mem_nil,
    or_false] at firstMember secondMember
  have firstAbove := onChain first firstBound index
  have secondAbove := onChain second secondBound index
  by_cases inFirst : index ∈ chains first
  · have inSecond : index ∈ chains second := by
      rcases secondMember with rfl | member | rfl
      · have := firstAbove inFirst
        omega
      · exact member
      · have := firstAbove inFirst
        omega
    obtain ⟨entry, entryMember, bucket⟩ := (layout.chained first firstBound index).1 inFirst
    exact different
      (bucket.symm.trans (layout.bucket_eq_of_mem_chain secondBound entryMember inSecond))
  · have atFirst : index = first := by tauto
    rcases secondMember with rfl | member | rfl
    · exact different atFirst.symm
    · have := secondAbove member
      omega
    · exact different atFirst.symm

/-! ## The empty table -/

theorem empty (positive : 0 < buckets) :
    Layout buckets (Table.empty buckets : Table κ ν).nodes [] (fun _ => []) := by
  have anchor : ∀ index ≤ buckets,
      (Table.empty buckets : Table κ ν).nodes.get? index = some (Node.anchor index) := by
    intro index inBounds
    have lower : index < buckets + 1 := by omega
    simp [Table.empty, Slab.get?_ofArray, lower]
  have alone : ∀ (field : LinkField (Node κ ν)) index, index ≤ buckets →
      field.get (Node.anchor index) = .alone index →
      Path (field.Adjacent (Table.empty buckets : Table κ ν).nodes) index [] index := by
    intro field index inBounds links
    refine ⟨⟨⟨_, anchor index inBounds, ?_⟩, ⟨_, anchor index inBounds, ?_⟩⟩, by simp, by simp⟩ <;>
      rw [links] <;> rfl
  refine
    { wellFormed := Slab.wellFormed_ofArray _
      positive := positive
      anchored := ?_
      held := by simp
      stored := ?_
      ring := alone ringField buckets (Nat.le_refl _) rfl
      chain := fun bucket inBounds => alone bucketField bucket (by omega) rfl
      chained := by simp
      distinct := by simp }
  · intro index inBounds
    rw [entryAt, anchor index inBounds]
    rfl
  · intro index held
    obtain ⟨node, holds⟩ := Option.isSome_iff_exists.1 held
    have inSlots := Slab.lt_size_of_get? holds
    have slots : (Table.empty buckets : Table κ ν).nodes.slots.size = buckets + 1 := by
      simp [Table.empty, Slab.ofArray]
    exact .inl (by omega)

end Layout

/-! ## Lookups -/

section Lookups

variable [BEq κ] {buckets : Nat} {nodes : Slab (Node κ ν)} {cells : List (Cell κ ν)}
  {chains : Nat → List Nat}

/-- The search follows the ring of the bucket and stops at the first node that holds the key. -/
theorem findFrom_eq {bucket : Nat} (hash : UInt32) (key : κ) :
    ∀ {rest : List Nat} {first fuel : Nat},
      Steps (bucketField.Adjacent nodes) first rest bucket →
      bucket ∉ rest → rest.length ≤ fuel →
        Table.findFrom nodes bucket hash key fuel (rest.headD bucket) =
          .ok (rest.find? fun index => (nodes.get? index).any (·.holds hash key))
  | [], _, 0, _, _, _ => rfl
  | [], _, _ + 1, _, _, _ => by simp [Table.findFrom]
  | index :: rest, _, fuel + 1, steps, absent, enough => by
      have notBucket : index ≠ bucket := fun same => absent (same ▸ List.mem_cons_self)
      obtain ⟨node, holds, next⟩ := steps.2.fromFirst.after
      have inductionHypothesis := findFrom_eq hash key steps.2
        (fun member => absent (List.mem_cons_of_mem _ member))
        (Nat.le_of_succ_le_succ enough)
      rw [List.headD_cons, Table.findFrom, if_neg notBucket, Slab.fetch_eq_ok_iff.2 holds,
        ok_bind]
      cases found : node.holds hash key with
      | true => simp [holds, found]
      | false =>
          rw [show node.bucket.next = rest.headD bucket from next, inductionHypothesis]
          simp [holds, found]

theorem Layout.any_holds_iff (layout : Layout buckets nodes cells chains) {index : Nat}
    {entry : Entry κ ν} (member : (index, entry) ∈ cells) (hash : UInt32) (key : κ) :
    (nodes.get? index).any (·.holds hash key) = entry.holds hash key := by
  obtain ⟨node, holds, hasEntry⟩ := layout.node_of_mem member
  simp [holds, Node.holds, hasEntry, Entry.holds]

theorem Layout.cell_unique [PartialEquivBEq κ] (layout : Layout buckets nodes cells chains)
    {first second : Cell κ ν} {hash : UInt32} {key : κ} (firstMember : first ∈ cells)
    (secondMember : second ∈ cells) (firstHolds : first.2.holds hash key)
    (secondHolds : second.2.holds hash key) : first = second :=
  layout.distinct _ firstMember _ secondMember (Entry.holds_of_holds firstHolds secondHolds)

/-- A lookup finds the cell that holds the key, wherever it lies on the ring of its bucket. -/
theorem Layout.find_eq [PartialEquivBEq κ] {table : Table κ ν}
    (layout : Layout table.buckets table.nodes cells chains) (hash : UInt32) (key : κ) :
    table.find hash key =
      .ok ((cells.find? fun cell => cell.2.holds hash key).map Prod.fst) := by
  have inBounds := layout.bucket_lt hash
  have path := layout.chain _ inBounds
  obtain ⟨anchor, anchorHolds, next⟩ := path.steps.fromFirst.after
  have enough : (chains (hash.toNat % table.buckets)).length ≤ table.nodes.slots.size := by
    refine Slab.length_le_size path.inner_nodup fun index member => ?_
    obtain ⟨node, holds⟩ := Option.isSome_iff_exists.1 (LinkField.path_isSome path member)
    exact Slab.lt_size_of_get? holds
  have walked := findFrom_eq hash key path.steps path.last_notMem enough
  rw [Table.find, Table.bucketOf, Slab.fetch_eq_ok_iff.2 anchorHolds, ok_bind,
    show anchor.bucket.next = _ from next, walked]
  congr 1
  have cellOf : ∀ index ∈ chains (hash.toNat % table.buckets), ∃ entry, (index, entry) ∈ cells :=
    fun index member =>
      ((layout.chained _ inBounds index).1 member).imp fun _ found => found.1
  cases found : cells.find? fun cell => cell.2.holds hash key with
  | none =>
      rw [Option.map_none, List.find?_eq_none]
      intro index onChain
      obtain ⟨entry, member⟩ := cellOf index onChain
      rw [layout.any_holds_iff member]
      exact List.find?_eq_none.1 found _ member
  | some cell =>
      obtain ⟨slot, entry⟩ := cell
      have member := List.mem_of_find?_eq_some found
      have holds := List.find?_some found
      have onChain := layout.mem_chain member
      rw [(Entry.holds_iff.1 holds).1] at onChain
      cases result : (chains (hash.toNat % table.buckets)).find?
          fun index => (table.nodes.get? index).any (·.holds hash key) with
      | none =>
          have missed := List.find?_eq_none.1 result _ onChain
          rw [layout.any_holds_iff member] at missed
          exact absurd holds missed
      | some index =>
          obtain ⟨other, otherMember⟩ := cellOf index (List.mem_of_find?_eq_some result)
          have otherHolds := List.find?_some result
          rw [layout.any_holds_iff otherMember] at otherHolds
          have same := layout.cell_unique otherMember member otherHolds holds
          rw [Option.map_some, ← same]

end Lookups

end BoundedCache.Clock
