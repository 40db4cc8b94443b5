import BoundedCache.Proofs.Clock.Layout
import Mathlib.Logic.Function.Basic

/-!
# Steps on the layout of a clock table

An entry can be changed in place, added behind all others, and taken off both its rings; the hand
can be moved round the ring. Each of these steps succeeds on a table that is laid out, and leaves
one that is laid out with the cells it names.
-/

namespace BoundedCache.Clock

variable {κ ν : Type}

/-! ## Moving the hand -/

/-- The hand moves behind the node in slot `index`: the entries it has passed come last now. -/
theorem moveHand_spec {nodes : Slab (Node κ ν)} {hand index : Nat} {passed ahead : List Nat}
    (ring : Path (ringField.Adjacent nodes) hand (passed ++ index :: ahead).reverse hand) :
    ∃ moved touched, ringField.moveAfter nodes index hand = .ok moved ∧
      ringField.Rewires touched nodes moved ∧
      Path (ringField.Adjacent moved) hand (index :: ahead ++ passed).reverse hand := by
  rw [List.reverse_append, List.reverse_cons, List.append_assoc, List.singleton_append] at ring
  obtain ⟨moved, step, movedRing, rewires⟩ := LinkField.moveAfter_spec ring.rotate
  refine ⟨moved, _, step, rewires, ?_⟩
  rw [← List.nil_append (hand :: _)] at movedRing
  have fromHand := movedRing.rotate
  simpa using fromHand

variable [BEq κ] {buckets : Nat} {nodes : Slab (Node κ ν)}
  {cells before after : List (Cell κ ν)} {chains : Nat → List Nat} {index : Nat}
  {entry : Entry κ ν}

namespace Layout

theorem slot_ne (layout : Layout buckets nodes (before ++ (index, entry) :: after) chains) :
    ∀ cell ∈ before ++ after, cell.1 ≠ index := by
  have distinct := layout.slots_nodup
  rw [List.map_append, List.map_cons, List.nodup_middle, List.nodup_cons,
    ← List.map_append] at distinct
  rintro cell member rfl
  exact distinct.1 (List.mem_map.2 ⟨cell, member, rfl⟩)

omit [BEq κ] in
theorem mem_middle {cell : Cell κ ν} :
    cell ∈ before ++ (index, entry) :: after ↔ cell = (index, entry) ∨ cell ∈ before ++ after :=
  List.perm_middle.mem_iff.trans List.mem_cons

/-! ## Changing an entry -/

section Revise

variable {changed : Entry κ ν}

omit [BEq κ] in
/-- An entry with the hash code of another stands on the same bucket in its place. -/
theorem exists_mem_revise (sameHash : changed.hash = entry.hash) {other bucket : Nat} :
    (∃ stored, (other, stored) ∈ before ++ (index, changed) :: after ∧
        stored.hash.toNat % buckets = bucket) ↔
      ∃ stored, (other, stored) ∈ before ++ (index, entry) :: after ∧
        stored.hash.toNat % buckets = bucket := by
  simp only [mem_middle, Prod.mk.injEq]
  constructor
  · rintro ⟨stored, ⟨rfl, rfl⟩ | inRest, onBucket⟩
    · exact ⟨entry, .inl ⟨rfl, rfl⟩, sameHash ▸ onBucket⟩
    · exact ⟨stored, .inr inRest, onBucket⟩
  · rintro ⟨stored, ⟨rfl, rfl⟩ | inRest, onBucket⟩
    · exact ⟨changed, .inl ⟨rfl, rfl⟩, sameHash ▸ onBucket⟩
    · exact ⟨stored, .inr inRest, onBucket⟩

/-- An entry with the hash code and the key of another is as different from the rest. -/
theorem distinct_revise (layout : Layout buckets nodes (before ++ (index, entry) :: after) chains)
    (sameHash : changed.hash = entry.hash) (sameKey : changed.key = entry.key) :
    ∀ first ∈ before ++ (index, changed) :: after,
      ∀ second ∈ before ++ (index, changed) :: after,
        first.2.holds second.2.hash second.2.key → first = second := by
  have distinct := layout.distinct
  have elsewhere := layout.slot_ne
  intro first firstMember second secondMember holding
  rcases mem_middle.1 firstMember with rfl | firstRest <;>
    rcases mem_middle.1 secondMember with rfl | secondRest
  · rfl
  · have held : entry.holds second.2.hash second.2.key := by
      simpa only [Entry.holds, sameHash, sameKey] using holding
    have same := distinct _ (mem_middle.2 (.inl rfl)) second (mem_middle.2 (.inr secondRest)) held
    exact absurd (congrArg Prod.fst same).symm (elsewhere second secondRest)
  · have held : first.2.holds entry.hash entry.key := by
      simpa only [sameHash, sameKey] using holding
    have same := distinct first (mem_middle.2 (.inr firstRest)) _ (mem_middle.2 (.inl rfl)) held
    exact absurd (congrArg Prod.fst same) (elsewhere first firstRest)
  · exact distinct first (mem_middle.2 (.inr firstRest)) second (mem_middle.2 (.inr secondRest))
      holding

end Revise

/-- An entry is changed in place; nothing else changes. -/
theorem revise (change : Entry κ ν → Entry κ ν)
    (layout : Layout buckets nodes (before ++ (index, entry) :: after) chains)
    (sameHash : (change entry).hash = entry.hash) (sameKey : (change entry).key = entry.key) :
    ∃ revised, nodes.modify index (Node.mapEntry change) = .ok revised ∧
      Layout buckets revised (before ++ (index, change entry) :: after) chains ∧
      Slab.Agree (fun node => (node.bucket, node.ring)) nodes revised := by
  have inCells : (index, entry) ∈ before ++ (index, entry) :: after := by simp
  obtain ⟨node, holds, hasEntry⟩ := layout.node_of_mem inCells
  have agree : Slab.Agree (fun node => (node.bucket, node.ring)) nodes
      (nodes.write index (some (node.mapEntry change))) := Slab.agree_write holds rfl
  have entries : ∀ other, entryAt (nodes.write index (some (node.mapEntry change))) other =
      if other = index then some (change entry) else entryAt nodes other := by
    intro other
    rw [entryAt, Slab.get?_write (Slab.lt_size_of_get? holds)]
    by_cases same : other = index
    · simp [same, Node.mapEntry, hasEntry]
    · simp [same, entryAt]
  refine ⟨_, Slab.modify_of_get? holds _, ?_, agree⟩
  refine
    { wellFormed := agree.wellFormed layout.wellFormed
      positive := layout.positive
      anchored := ?_
      held := ?_
      stored := ?_
      ring := ?_
      chain := fun bucket inBounds =>
        LinkField.path_of_agree (layout.chain bucket inBounds) (agree.comp Prod.fst)
      chained := fun bucket inBounds other =>
        (layout.chained bucket inBounds other).trans (exists_mem_revise sameHash).symm
      distinct := layout.distinct_revise sameHash sameKey }
  · intro other inBounds
    have above := layout.above inCells
    rw [entries, if_neg (by omega), layout.anchored other inBounds]
  · intro cell member
    rw [entries]
    rcases mem_middle.1 member with rfl | inRest
    · rw [if_pos rfl]
    · rw [if_neg (layout.slot_ne cell inRest)]
      exact layout.held cell (mem_middle.2 (.inr inRest))
  · intro other held
    rw [agree.isSome_get?] at held
    refine (layout.stored other held).imp_right ?_
    rintro ⟨stored, member⟩
    rcases mem_middle.1 member with same | inRest
    · obtain ⟨rfl, rfl⟩ := Prod.mk.inj same
      exact ⟨change stored, mem_middle.2 (.inl rfl)⟩
    · exact ⟨stored, mem_middle.2 (.inr inRest)⟩
  · have ring := LinkField.path_of_agree layout.ring (agree.comp Prod.snd)
    simpa using ring

/-! ## Filled slots -/

theorem anchor_isSome (layout : Layout buckets nodes cells chains) {other : Nat}
    (inBounds : other ≤ buckets) : (nodes.get? other).isSome := by
  rcases Nat.lt_or_eq_of_le inBounds with isBucket | rfl
  · exact LinkField.path_first_isSome (layout.chain other isBucket)
  · exact layout.hand_isSome

/-- The filled slots are those of the anchors, of the hand and of the cells. -/
theorem occupied (layout : Layout buckets nodes cells chains) :
    nodes.occupied = buckets + 1 + cells.length := by
  have distinct : (List.range (buckets + 1) ++ cells.map Prod.fst).Nodup := by
    refine List.nodup_append.2 ⟨List.nodup_range, layout.slots_nodup, ?_⟩
    rintro index isAnchor _ isSlot rfl
    obtain ⟨⟨_, entry⟩, member, rfl⟩ := List.mem_map.1 isSlot
    have above := layout.above member
    have bound := List.mem_range.1 isAnchor
    omega
  have filled : ∀ index, index ∈ List.range (buckets + 1) ++ cells.map Prod.fst ↔
      (nodes.get? index).isSome := by
    intro index
    rw [List.mem_append, List.mem_range, Nat.lt_succ_iff, List.mem_map]
    constructor
    · rintro (isAnchor | ⟨cell, member, rfl⟩)
      · exact layout.anchor_isSome isAnchor
      · obtain ⟨node, held, _⟩ := layout.node_of_mem member
        exact Option.isSome_iff_exists.2 ⟨node, held⟩
    · intro held
      exact (layout.stored index held).imp_right fun ⟨entry, member⟩ => ⟨_, member, rfl⟩
  rw [layout.wellFormed.occupied_eq distinct filled, List.length_append, List.length_range,
    List.length_map]

/-! ## Adding an entry -/

section Vacant

variable {slot : Nat}

theorem above_of_vacant (layout : Layout buckets nodes cells chains)
    (vacant : nodes.get? slot = none) : buckets < slot := by
  by_contra notAbove
  have isAnchor := layout.anchor_isSome (Nat.le_of_not_lt notAbove)
  simp [vacant] at isAnchor

theorem slot_ne_of_vacant (layout : Layout buckets nodes cells chains)
    (vacant : nodes.get? slot = none) : ∀ cell ∈ cells, cell.1 ≠ slot := by
  rintro ⟨index, stored⟩ member rfl
  obtain ⟨node, holds, _⟩ := layout.node_of_mem member
  simp [vacant] at holds

theorem notMem_ring_of_vacant (layout : Layout buckets nodes cells chains)
    (vacant : nodes.get? slot = none) :
    slot ∉ buckets :: (cells.map Prod.fst).reverse ++ [buckets] := by
  have above := layout.above_of_vacant vacant
  refine notMem_ends (by omega) ?_ (by omega)
  rw [List.mem_reverse, List.mem_map]
  rintro ⟨cell, member, same⟩
  exact layout.slot_ne_of_vacant vacant cell member same

theorem notMem_chain_of_vacant (layout : Layout buckets nodes cells chains)
    (vacant : nodes.get? slot = none) {bucket : Nat} (inBounds : bucket < buckets) :
    slot ∉ bucket :: chains bucket ++ [bucket] := by
  have above := layout.above_of_vacant vacant
  refine notMem_ends (by omega) ?_ (by omega)
  intro member
  obtain ⟨stored, storedMember, _⟩ := (layout.chained bucket inBounds _).1 member
  exact layout.slot_ne_of_vacant vacant _ storedMember rfl

end Vacant

/-- With a new cell, the slots of each bucket are still those of its cells. -/
theorem chained_add (layout : Layout buckets nodes cells chains) (slot : Nat)
    (entry : Entry κ ν) {other : Nat} (inBounds : other < buckets) (index : Nat) :
    let bucket := entry.hash.toNat % buckets
    index ∈ Function.update chains bucket (slot :: chains bucket) other ↔
      ∃ stored, (index, stored) ∈ cells ++ [(slot, entry)] ∧
        stored.hash.toNat % buckets = other := by
  intro bucket
  have old := layout.chained other inBounds index
  by_cases same : other = bucket
  · subst same
    rw [Function.update_self, List.mem_cons, old]
    constructor
    · rintro (rfl | ⟨stored, member, onBucket⟩)
      · exact ⟨entry, by simp, rfl⟩
      · exact ⟨stored, List.mem_append_left _ member, onBucket⟩
    · rintro ⟨stored, member, onBucket⟩
      rcases List.mem_append.1 member with before | new
      · exact .inr ⟨stored, before, onBucket⟩
      · exact .inl (congrArg Prod.fst (List.mem_singleton.1 new))
  · rw [Function.update_of_ne same, old]
    constructor
    · rintro ⟨stored, member, onBucket⟩
      exact ⟨stored, List.mem_append_left _ member, onBucket⟩
    · rintro ⟨stored, member, onBucket⟩
      rcases List.mem_append.1 member with before | new
      · exact ⟨stored, before, onBucket⟩
      · obtain ⟨rfl, rfl⟩ := Prod.mk.inj (List.mem_singleton.1 new)
        exact absurd onBucket.symm same

/-- A cell for a new key is different from all others. -/
theorem distinct_add [PartialEquivBEq κ] (layout : Layout buckets nodes cells chains)
    (fresh : ∀ cell ∈ cells, ¬ cell.2.holds entry.hash entry.key) (slot : Nat) :
    ∀ first ∈ cells ++ [(slot, entry)], ∀ second ∈ cells ++ [(slot, entry)],
      first.2.holds second.2.hash second.2.key → first = second := by
  intro first firstMember second secondMember holding
  rcases List.mem_append.1 firstMember with firstOld | firstNew <;>
    rcases List.mem_append.1 secondMember with secondOld | secondNew
  · exact layout.distinct first firstOld second secondOld holding
  · rw [List.mem_singleton.1 secondNew] at holding
    exact absurd holding (fresh first firstOld)
  · rw [List.mem_singleton.1 firstNew] at holding
    have holds := Entry.holds_iff.1 holding
    refine absurd ?_ (fresh second secondOld)
    exact Entry.holds_iff.2 ⟨holds.1.symm, PartialEquivBEq.symm holds.2⟩
  · rw [List.mem_singleton.1 firstNew, List.mem_singleton.1 secondNew]

/-- A node in a new slot is put in front of its bucket; the other buckets keep their rings. -/
theorem chain_add (layout : Layout buckets nodes cells chains) (node : Node κ ν)
    {bucket : Nat} (inBounds : bucket < buckets) :
    let inserted := nodes.insert node
    ∃ chained touched,
      bucketField.insertAfter inserted.1 bucket inserted.2 = .ok chained ∧
      bucketField.Rewires touched inserted.1 chained ∧
      ∀ other < buckets, Path (bucketField.Adjacent chained) other
        (Function.update chains bucket (inserted.2 :: chains bucket) other) other := by
  intro inserted
  have vacant : nodes.get? inserted.2 = none := Slab.get?_insert_snd layout.wellFormed _
  have newHeld : (inserted.1.get? inserted.2).isSome := by
    simp [inserted, Slab.get?_insert layout.wellFormed]
  obtain ⟨chained, step, path, rewires⟩ :=
    LinkField.insertAfter_spec
      (LinkField.path_insert layout.wellFormed _ (layout.chain bucket inBounds)) newHeld
      (layout.notMem_chain_of_vacant vacant inBounds)
  refine ⟨chained, _, step, rewires, ?_⟩
  intro other otherBound
  by_cases same : other = bucket
  · subst same
    rw [Function.update_self]
    exact path
  · rw [Function.update_of_ne same]
    refine rewires.path
      (LinkField.path_insert layout.wellFormed _ (layout.chain other otherBound)) ?_
    intro slot member touched
    rcases List.mem_cons.1 touched with rfl | onBucket
    · exact layout.notMem_chain_of_vacant vacant otherBound member
    · exact layout.chains_disjoint otherBound inBounds same slot member onBucket

/-- An entry for a new key is put in front of its bucket and behind all others of the ring. -/
theorem add [PartialEquivBEq κ] (layout : Layout buckets nodes cells chains) (entry : Entry κ ν)
    (fresh : ∀ cell ∈ cells, ¬ cell.2.holds entry.hash entry.key) (links : Links) :
    let inserted := nodes.insert ⟨some entry, links, links⟩
    let bucket := entry.hash.toNat % buckets
    ∃ chainedNodes ringed,
      bucketField.insertAfter inserted.1 bucket inserted.2 = .ok chainedNodes ∧
      ringField.insertAfter chainedNodes buckets inserted.2 = .ok ringed ∧
      Layout buckets ringed (cells ++ [(inserted.2, entry)])
        (Function.update chains bucket (inserted.2 :: chains bucket)) := by
  intro inserted bucket
  have vacant : nodes.get? inserted.2 = none := Slab.get?_insert_snd layout.wellFormed _
  have filled : ∀ other, inserted.1.get? other =
      if other = inserted.2 then some ⟨some entry, links, links⟩ else nodes.get? other :=
    Slab.get?_insert layout.wellFormed _
  have newHeld : (inserted.1.get? inserted.2).isSome := by simp [filled]
  -- the bucket first, which leaves the ring alone
  obtain ⟨chainedNodes, _, chainStep, chainRewires, chainPaths⟩ :=
    layout.chain_add ⟨some entry, links, links⟩ (layout.bucket_lt entry.hash)
  have ringStill := LinkField.path_of_agree
    (LinkField.path_insert layout.wellFormed ⟨some entry, links, links⟩ layout.ring)
    (chainRewires.agree ringField.get fun _ _ => rfl)
  obtain ⟨ringed, ringStep, ringPath, ringRewires⟩ :=
    LinkField.insertAfter_spec ringStill
      ((chainRewires.isSome_get? inserted.2).trans newHeld)
      (layout.notMem_ring_of_vacant vacant)
  have insertedWellFormed : inserted.1.WellFormed := layout.wellFormed.insert _
  have newAbove := layout.above_of_vacant vacant
  have entries : ∀ other, entryAt ringed other =
      if other = inserted.2 then some entry else entryAt nodes other := by
    intro other
    rw [entryAt_of_agree (ringRewires.agree Node.entry fun _ _ => rfl),
      entryAt_of_agree (chainRewires.agree Node.entry fun _ _ => rfl), entryAt, filled]
    by_cases same : other = inserted.2 <;> simp [same, entryAt]
  refine ⟨chainedNodes, ringed, chainStep, ringStep, ?_⟩
  refine
    { wellFormed := ringRewires.wellFormed (chainRewires.wellFormed insertedWellFormed)
      positive := layout.positive
      anchored := ?_
      held := ?_
      stored := ?_
      ring := by simpa using ringPath
      chain := fun other inBounds => LinkField.path_of_agree (chainPaths other inBounds)
        (ringRewires.agree bucketField.get fun _ _ => rfl)
      chained := fun other inBounds => layout.chained_add inserted.2 entry inBounds
      distinct := layout.distinct_add fresh inserted.2 }
  · intro other isAnchor
    rw [entries, if_neg (by omega), layout.anchored other isAnchor]
  · intro cell member
    rw [entries]
    rcases List.mem_append.1 member with old | new
    · rw [if_neg (layout.slot_ne_of_vacant vacant cell old), layout.held cell old]
    · rw [List.mem_singleton.1 new, if_pos rfl]
  · intro other held
    rw [ringRewires.isSome_get?, chainRewires.isSome_get?, filled] at held
    by_cases same : other = inserted.2
    · exact .inr ⟨entry, by simp [same]⟩
    · rw [if_neg same] at held
      exact (layout.stored other held).imp_right
        (Exists.imp fun _ => List.mem_append_left _)

/-! ## Taking an entry off -/

/-- An entry is taken off its bucket; the other buckets keep their rings. -/
theorem unchain (layout : Layout buckets nodes cells chains) (member : (index, entry) ∈ cells) :
    ∃ unchained touched, bucketField.detach nodes index = .ok unchained ∧
      bucketField.Rewires touched nodes unchained ∧
      ∀ bucket < buckets,
        Path (bucketField.Adjacent unchained) bucket ((chains bucket).erase index) bucket := by
  have inBounds := layout.bucket_lt entry.hash
  have path := layout.chain _ inBounds
  obtain ⟨inFront, behind, split⟩ := List.append_of_mem (layout.mem_chain member)
  rw [split] at path
  obtain ⟨unchained, step, shorter, rewires⟩ := LinkField.detach_spec path
  refine ⟨unchained, _, step, rewires, ?_⟩
  intro bucket bucketBound
  by_cases same : bucket = entry.hash.toNat % buckets
  · subst same
    have notInFront : index ∉ inFront := by
      have distinct := path.inner_nodup
      grind
    rw [split, List.erase_append_right _ notInFront, List.erase_cons_head]
    exact shorter
  · have apart := layout.chains_disjoint bucketBound inBounds same
    have notOnChain : index ∉ chains bucket := by
      intro onChain
      exact same (layout.bucket_eq_of_mem_chain bucketBound member onChain).symm
    rw [List.erase_of_not_mem notOnChain]
    refine rewires.path (layout.chain bucket bucketBound) ?_
    intro slot onPath touched
    refine apart slot onPath ?_
    rw [split]
    grind

/-- An entry that is on no ring any more is emptied; `rest` are the other cells, in the order that
the ring now has. -/
theorem discard {rest : List (Cell κ ν)} {final : Slab (Node κ ν)}
    (layout : Layout buckets nodes cells chains) (member : (index, entry) ∈ cells)
    (agree : Slab.Agree Node.entry nodes final)
    (ring : Path (ringField.Adjacent final) buckets (rest.map Prod.fst).reverse buckets)
    (chain : ∀ bucket < buckets,
      Path (bucketField.Adjacent final) bucket ((chains bucket).erase index) bucket)
    (others : ∀ cell, cell ∈ rest ↔ cell ∈ cells ∧ cell.1 ≠ index) :
    Layout buckets (final.erase index).1 rest (fun bucket => (chains bucket).erase index) := by
  have above := layout.above member
  have entries : ∀ other, entryAt (final.erase index).1 other =
      if other = index then none else entryAt nodes other := by
    intro other
    rw [← entryAt_of_agree agree, entryAt, Slab.get?_erase]
    by_cases same : other = index <;> simp [same, entryAt]
  refine
    { wellFormed := (agree.wellFormed layout.wellFormed).erase index
      positive := layout.positive
      anchored := ?_
      held := ?_
      stored := ?_
      ring := LinkField.path_erase ring ?_
      chain := fun bucket inBounds => LinkField.path_erase (chain bucket inBounds) ?_
      chained := ?_
      distinct := ?_ }
  · intro other isAnchor
    rw [entries, if_neg (by omega), layout.anchored other isAnchor]
  · intro cell inRest
    obtain ⟨inCells, elsewhere⟩ := (others cell).1 inRest
    rw [entries, if_neg elsewhere, layout.held cell inCells]
  · intro other held
    rw [Slab.get?_erase] at held
    by_cases same : other = index
    · simp [same] at held
    · rw [if_neg same, agree.isSome_get?] at held
      refine (layout.stored other held).imp_right (Exists.imp fun stored inCells => ?_)
      exact (others _).2 ⟨inCells, same⟩
  · have notOnRing : index ∉ (rest.map Prod.fst).reverse := by
      rw [List.mem_reverse, List.mem_map]
      rintro ⟨cell, inRest, same⟩
      exact ((others cell).1 inRest).2 same
    exact notMem_ends (by omega) notOnRing (by omega)
  · have distinct := (layout.chain bucket inBounds).inner_nodup
    exact notMem_ends (by omega) distinct.not_mem_erase (by omega)
  · intro bucket inBounds other
    have distinct := (layout.chain bucket inBounds).inner_nodup
    rw [distinct.mem_erase_iff, layout.chained bucket inBounds]
    constructor
    · rintro ⟨different, stored, inCells, onBucket⟩
      exact ⟨stored, (others _).2 ⟨inCells, different⟩, onBucket⟩
    · rintro ⟨stored, inRest, onBucket⟩
      obtain ⟨inCells, different⟩ := (others _).1 inRest
      exact ⟨different, stored, inCells, onBucket⟩
  · intro first firstMember second secondMember holding
    exact layout.distinct first ((others first).1 firstMember).1 second
      ((others second).1 secondMember).1 holding

theorem mem_without (layout : Layout buckets nodes (before ++ (index, entry) :: after) chains)
    (cell : Cell κ ν) :
    cell ∈ before ++ after ↔
      cell ∈ before ++ (index, entry) :: after ∧ cell.1 ≠ index := by
  rw [mem_middle]
  constructor
  · intro member
    exact ⟨.inr member, layout.slot_ne cell member⟩
  · rintro ⟨rfl | member, different⟩
    · exact absurd rfl different
    · exact member

/-- An entry is taken off both its rings and its slot is emptied. -/
theorem remove (layout : Layout buckets nodes (before ++ (index, entry) :: after) chains) :
    ∃ unchained final,
      bucketField.detach nodes index = .ok unchained ∧
      ringField.detach unchained index = .ok final ∧
      entryAt final index = some entry ∧
      Layout buckets (final.erase index).1 (before ++ after)
        (fun bucket => (chains bucket).erase index) := by
  have member : (index, entry) ∈ before ++ (index, entry) :: after := by simp
  obtain ⟨unchained, _, unchainStep, unchainRewires, unchainedPaths⟩ := layout.unchain member
  have ring := LinkField.path_of_agree layout.ring
    (unchainRewires.agree ringField.get fun _ _ => rfl)
  rw [List.map_append, List.map_cons, List.reverse_append, List.reverse_cons,
    List.append_assoc, List.singleton_append] at ring
  obtain ⟨final, ringStep, ringPath, ringRewires⟩ := LinkField.detach_spec ring
  rw [← List.reverse_append, ← List.map_append] at ringPath
  have agree : Slab.Agree Node.entry nodes final :=
    (unchainRewires.agree Node.entry fun _ _ => rfl).trans
      (ringRewires.agree Node.entry fun _ _ => rfl)
  refine ⟨unchained, final, unchainStep, ringStep, ?_, ?_⟩
  · rw [entryAt_of_agree agree]
    exact layout.held _ member
  · exact layout.discard member agree ringPath
      (fun bucket inBounds => LinkField.path_of_agree (unchainedPaths bucket inBounds)
        (ringRewires.agree bucketField.get fun _ _ => rfl))
      layout.mem_without

/-- A victim is taken off, and the hand takes its place on the ring. -/
theorem evict (layout : Layout buckets nodes (before ++ (index, entry) :: after) chains) :
    ∃ unchained moved final,
      bucketField.detach nodes index = .ok unchained ∧
      ringField.moveAfter unchained index buckets = .ok moved ∧
      ringField.detach moved index = .ok final ∧
      entryAt final index = some entry ∧
      Layout buckets (final.erase index).1 (after ++ before)
        (fun bucket => (chains bucket).erase index) := by
  have member : (index, entry) ∈ before ++ (index, entry) :: after := by simp
  obtain ⟨unchained, _, unchainStep, unchainRewires, unchainedPaths⟩ := layout.unchain member
  have ring := LinkField.path_of_agree layout.ring
    (unchainRewires.agree ringField.get fun _ _ => rfl)
  rw [List.map_append, List.map_cons] at ring
  obtain ⟨moved, _, moveStep, moveRewires, movedRing⟩ := moveHand_spec ring
  rw [List.cons_append, List.reverse_cons] at movedRing
  obtain ⟨final, ringStep, ringPath, ringRewires⟩ := LinkField.detach_spec movedRing
  rw [List.append_nil, ← List.map_append] at ringPath
  have agree : Slab.Agree Node.entry nodes final :=
    ((unchainRewires.agree Node.entry fun _ _ => rfl).trans
      (moveRewires.agree Node.entry fun _ _ => rfl)).trans
      (ringRewires.agree Node.entry fun _ _ => rfl)
  have chainAgree : Slab.Agree bucketField.get unchained final :=
    (moveRewires.agree bucketField.get fun _ _ => rfl).trans
      (ringRewires.agree bucketField.get fun _ _ => rfl)
  refine ⟨unchained, moved, final, unchainStep, moveStep, ringStep, ?_, ?_⟩
  · rw [entryAt_of_agree agree]
    exact layout.held _ member
  · refine layout.discard member agree ringPath
      (fun bucket inBounds => LinkField.path_of_agree (unchainedPaths bucket inBounds) chainAgree)
      fun cell => ?_
    rw [← layout.mem_without cell, List.mem_append, List.mem_append, or_comm]

/-! ## Parking the hand -/

/-- The hand is parked before the entry in slot `index`; only the order changes. -/
theorem park (layout : Layout buckets nodes (before ++ (index, entry) :: after) chains) :
    ∃ moved, ringField.moveAfter nodes index buckets = .ok moved ∧
      Layout buckets moved ((index, entry) :: after ++ before) chains := by
  have ring := layout.ring
  rw [List.map_append, List.map_cons] at ring
  obtain ⟨moved, _, step, rewires, movedRing⟩ := moveHand_spec ring
  have entries := entryAt_of_agree (rewires.agree Node.entry fun _ _ => rfl)
  have members : ∀ cell : Cell κ ν, cell ∈ (index, entry) :: after ++ before ↔
      cell ∈ before ++ (index, entry) :: after := by
    intro cell
    rw [List.mem_append, List.mem_append, or_comm]
  refine ⟨moved, step, ?_⟩
  exact
    { wellFormed := rewires.wellFormed layout.wellFormed
      positive := layout.positive
      anchored := fun other isAnchor => (entries other).trans (layout.anchored other isAnchor)
      held := fun cell member =>
        (entries cell.1).trans (layout.held cell ((members cell).1 member))
      stored := fun other held => by
        rw [rewires.isSome_get?] at held
        exact (layout.stored other held).imp_right
          (Exists.imp fun _ member => (members _).2 member)
      ring := by simpa using movedRing
      chain := fun bucket inBounds => LinkField.path_of_agree (layout.chain bucket inBounds)
        (rewires.agree bucketField.get fun _ _ => rfl)
      chained := fun bucket inBounds other => by
        simp only [layout.chained bucket inBounds other, members]
      distinct := fun first firstMember second secondMember =>
        layout.distinct first ((members first).1 firstMember) second
          ((members second).1 secondMember) }

end Layout

end BoundedCache.Clock
