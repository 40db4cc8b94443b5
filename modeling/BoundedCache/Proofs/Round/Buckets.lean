import BoundedCache.Proofs.Links.Chain
import BoundedCache.Round.Cache

/-!
# The buckets of a round cache

Each bucket is a chain of the nodes whose hash codes lead to it. A node may be stored without being
on a chain, so the nodes that are on one are named. A search reads the chain of one bucket; putting
a node on its bucket or taking it off leaves the chains of all other buckets alone.
-/

namespace BoundedCache.Round

variable {κ ν : Type}

/-- The bucket to which the hash code in a slot leads. -/
def bucketAt (count : Nat) (nodes : Slab (Node (Entry κ ν))) (index : Nat) : Option Nat :=
  (nodes.get? index).map fun node => node.item.hash.toNat % count

/-- What decides where a node lies among the buckets. -/
def Node.place (node : Node (Entry κ ν)) : UInt32 × ChainLinks :=
  (node.item.hash, node.item.bucket)

/-- The chain of each bucket leads through those of the slots whose hash codes lead to it. -/
structure Housed (buckets : Array (Option Nat)) (nodes : Slab (Node (Entry κ ν)))
    (slots : List Nat) : Prop where
  positive : 0 < buckets.size
  house : ∀ bucket first, buckets[bucket]? = some first →
    ∃ last chain, bucketField.Chain nodes first last chain ∧
      ∀ index, index ∈ chain ↔ index ∈ slots ∧ bucketAt buckets.size nodes index = some bucket

namespace Housed

variable {buckets : Array (Option Nat)} {nodes : Slab (Node (Entry κ ν))} {slots : List Nat}
  {index : Nat}

theorem empty {count : Nat} (positive : 0 < count) (nodes : Slab (Node (Entry κ ν))) :
    Housed (Array.replicate count none) nodes [] where
  positive := by simpa using positive
  house bucket first isBucket := by
    obtain ⟨inBounds, isNone⟩ := Array.getElem?_eq_some_iff.1 isBucket
    rw [Array.getElem_replicate] at isNone
    exact ⟨none, [], by rw [← isNone]; exact ChainField.chain_nil, by simp⟩

theorem bucket_lt (housed : Housed buckets nodes slots) (hash : UInt32) :
    hash.toNat % buckets.size < buckets.size :=
  Nat.mod_lt _ housed.positive

theorem bucketHead_eq {cache : RoundCache κ ν} {bucket : Nat}
    (inBounds : bucket < cache.buckets.size) :
    cache.bucketHead bucket = .ok cache.buckets[bucket] := by
  simp [RoundCache.bucketHead, inBounds]

/-! ## Steps elsewhere -/

/-- Only the hash codes and the links of the nodes on the chains matter. -/
theorem of_get? {after : Slab (Node (Entry κ ν))} (housed : Housed buckets nodes slots)
    (same : ∀ index ∈ slots,
      (after.get? index).map Node.place = (nodes.get? index).map Node.place) :
    Housed buckets after slots where
  positive := housed.positive
  house bucket first isBucket := by
    obtain ⟨last, chain, path, members⟩ := housed.house bucket first isBucket
    refine ⟨last, chain, ChainField.chain_of_get? path fun index member => ?_, fun index => ?_⟩
    · have seen := congrArg (Option.map Prod.snd) (same index ((members index).1 member).1)
      rwa [Option.map_map, Option.map_map] at seen
    · rw [members index]
      refine and_congr_right fun member => ?_
      have seen := congrArg (Option.map fun place => place.1.toNat % buckets.size)
        (same index member)
      rw [Option.map_map, Option.map_map] at seen
      have sameBucket :
          bucketAt buckets.size after index = bucketAt buckets.size nodes index := seen
      rw [sameBucket]

theorem of_agree {after : Slab (Node (Entry κ ν))} (housed : Housed buckets nodes slots)
    (agree : Slab.Agree Node.place nodes after) : Housed buckets after slots :=
  housed.of_get? fun index _ => agree.seen index

/-- The order in which the slots are named does not matter. -/
theorem of_mem_iff {others : List Nat} (housed : Housed buckets nodes slots)
    (same : ∀ index, index ∈ others ↔ index ∈ slots) : Housed buckets nodes others where
  positive := housed.positive
  house bucket first isBucket := by
    obtain ⟨last, chain, path, members⟩ := housed.house bucket first isBucket
    exact ⟨last, chain, path, fun index => by rw [members index, same index]⟩

/-! ## Putting a node on its bucket -/

/-- A bucket is replaced; the chains of the others are kept. -/
theorem replace {after : Slab (Node (Entry κ ν))} {others : List Nat} {bucket : Nat}
    {first last : Option Nat} {chain : List Nat} (housed : Housed buckets nodes slots)
    (inBounds : bucket < buckets.size) (path : bucketField.Chain after first last chain)
    (sameBuckets : ∀ index, bucketAt buckets.size after index = bucketAt buckets.size nodes index)
    (members : ∀ index, index ∈ chain ↔
      index ∈ others ∧ bucketAt buckets.size nodes index = some bucket)
    (kept : ∀ {first last chain},
      (∀ index ∈ chain, index ∈ slots ∧ bucketAt buckets.size nodes index ≠ some bucket) →
      bucketField.Chain nodes first last chain → bucketField.Chain after first last chain)
    (elsewhere : ∀ index, bucketAt buckets.size nodes index ≠ some bucket →
      (index ∈ others ↔ index ∈ slots)) :
    Housed (buckets.setIfInBounds bucket first) after others where
  positive := by simpa using housed.positive
  house other start isBucket := by
    rw [Array.size_setIfInBounds]
    by_cases same : other = bucket
    · subst same
      rw [Array.getElem?_setIfInBounds_self_of_lt inBounds] at isBucket
      rw [← Option.some.inj isBucket]
      exact ⟨last, chain, path, fun index => by rw [members index, sameBuckets]⟩
    · rw [Array.getElem?_setIfInBounds_ne fun equal => same equal.symm] at isBucket
      obtain ⟨otherLast, otherChain, otherPath, otherMembers⟩ := housed.house other start isBucket
      have apart : ∀ index ∈ otherChain,
          index ∈ slots ∧ bucketAt buckets.size nodes index ≠ some bucket := by
        intro index member
        obtain ⟨isSlot, isOther⟩ := (otherMembers index).1 member
        refine ⟨isSlot, ?_⟩
        rw [isOther]
        exact fun equal => same (Option.some.inj equal)
      refine ⟨otherLast, otherChain, kept apart otherPath, fun index => ?_⟩
      rw [otherMembers index, sameBuckets]
      refine and_congr_left fun isOther => (elsewhere index ?_).symm
      rw [isOther]
      exact fun equal => same (Option.some.inj equal)

/-- Links of the buckets do not decide where a hash code leads. -/
theorem bucketAt_of_rewires {after : Slab (Node (Entry κ ν))} {touched : List (Option Nat)}
    (rewires : bucketField.Rewires touched nodes after) (count index : Nat) :
    bucketAt count after index = bucketAt count nodes index :=
  (rewires.agree (fun node => node.item.hash.toNat % count) fun _ _ => rfl).seen index

theorem house_of (housed : Housed buckets nodes slots) {node : Node (Entry κ ν)}
    (holds : nodes.get? index = some node) :
    ∃ (inBounds : node.item.hash.toNat % buckets.size < buckets.size) (last : Option Nat)
      (chain : List Nat),
      bucketAt buckets.size nodes index = some (node.item.hash.toNat % buckets.size) ∧
      bucketField.Chain nodes buckets[node.item.hash.toNat % buckets.size] last chain ∧
      ∀ index, index ∈ chain ↔ index ∈ slots ∧
        bucketAt buckets.size nodes index = some (node.item.hash.toNat % buckets.size) := by
  have inBounds := housed.bucket_lt node.item.hash
  obtain ⟨last, chain, path, members⟩ :=
    housed.house _ _ (Array.getElem?_eq_getElem inBounds)
  exact ⟨inBounds, last, chain, by rw [bucketAt, holds, Option.map_some], path, members⟩

theorem linkBucket {cache : RoundCache κ ν}
    (housed : Housed cache.buckets cache.list.nodes slots)
    (stored : (cache.list.nodes.get? index).isSome) (fresh : index ∉ slots) :
    ∃ buckets nodes, cache.linkBucket index = .ok ({ cache with buckets }.withNodes nodes) ∧
      Housed buckets nodes (index :: slots) ∧
      ∀ {β : Type} (view : Node (Entry κ ν) → β),
        (∀ links node, view (bucketField.set links node) = view node) →
        Slab.Agree view cache.list.nodes nodes := by
  obtain ⟨node, holds⟩ := Option.isSome_iff_exists.1 stored
  obtain ⟨inBounds, last, chain, isHere, path, members⟩ := housed.house_of holds
  have notOnChain : index ∉ chain := fun onChain => fresh ((members index).1 onChain).1
  obtain ⟨nodes, step, rewires, newLast, newPath⟩ :=
    ChainField.pushFront_spec path stored notOnChain
  refine ⟨_, nodes, ?_, housed.replace inBounds newPath (bucketAt_of_rewires rewires _) ?_ ?_ ?_,
    rewires.agree⟩
  · simp only [RoundCache.linkBucket, Slab.fetch_eq_ok_iff.2 holds, ok_bind, RoundCache.bucketOf,
      bucketHead_eq inBounds, step, pure_eq_ok]
  · intro other
    rw [List.mem_cons, List.mem_cons, members other]
    constructor
    · rintro (rfl | ⟨isSlot, isBucket⟩)
      · exact ⟨.inl rfl, isHere⟩
      · exact ⟨.inr isSlot, isBucket⟩
    · rintro ⟨rfl | isSlot, isBucket⟩
      · exact .inl rfl
      · exact .inr ⟨isSlot, isBucket⟩
  · intro otherFirst otherLast otherChain apart otherPath
    refine rewires.chain otherPath fun other member touched => ?_
    obtain ⟨isSlot, elsewhere⟩ := apart other member
    have notIndex : other ≠ index := fun same => fresh (same ▸ isSlot)
    have notFirst : some other ≠ cache.buckets[node.item.hash.toNat % cache.buckets.size] := by
      intro isFirst
      rw [ChainField.chain_first path] at isFirst
      exact elsewhere ((members other).1 (List.mem_of_head? isFirst.symm)).2
    simp [notIndex, notFirst] at touched
  · intro other elsewhere
    rw [List.mem_cons, or_iff_right]
    rintro rfl
    exact elsewhere isHere

/-! ## Taking a node off its bucket -/

/-- The head of a bucket is replaced where nothing comes before the node, and written again as it
was where something does. -/
theorem unlinkBucket_eq {cache : RoundCache κ ν} {node : Node (Entry κ ν)}
    {nodes : Slab (Node (Entry κ ν))} (holds : cache.list.nodes.get? index = some node)
    (inBounds : node.item.hash.toNat % cache.buckets.size < cache.buckets.size)
    (step : bucketField.join cache.list.nodes node.item.bucket.prev node.item.bucket.next =
      .ok nodes) :
    let bucket := node.item.hash.toNat % cache.buckets.size
    let first := ChainField.firstAfter cache.buckets[bucket] node.item.bucket.prev
      node.item.bucket.next
    cache.unlinkBucket index =
      .ok ({ cache with buckets := cache.buckets.setIfInBounds bucket first }.withNodes nodes) := by
  intro bucket first
  simp only [RoundCache.unlinkBucket, Slab.fetch_eq_ok_iff.2 holds, ok_bind, step]
  cases before : node.item.bucket.prev with
  | none => simp [first, before, RoundCache.withNodes, RoundCache.bucketOf, bucket]
  | some previous =>
      have unchanged : cache.buckets.setIfInBounds bucket cache.buckets[bucket] =
          cache.buckets := by
        rw [Array.setIfInBounds_def]
        simp
      simp [first, before, unchanged]

theorem unlinkBucket {cache : RoundCache κ ν} {others : List Nat}
    (housed : Housed cache.buckets cache.list.nodes slots)
    (member : index ∈ slots) (stored : (cache.list.nodes.get? index).isSome)
    (rest : ∀ other, other ∈ others ↔ other ∈ slots ∧ other ≠ index) :
    ∃ buckets nodes, cache.unlinkBucket index = .ok ({ cache with buckets }.withNodes nodes) ∧
      Housed buckets nodes others ∧
      ∀ {β : Type} (view : Node (Entry κ ν) → β),
        (∀ links node, view (bucketField.set links node) = view node) →
        Slab.Agree view cache.list.nodes nodes := by
  obtain ⟨node, holds⟩ := Option.isSome_iff_exists.1 stored
  obtain ⟨inBounds, last, chain, isHere, path, members⟩ := housed.house_of holds
  obtain ⟨before, after, rfl⟩ := List.append_of_mem ((members index).2 ⟨member, isHere⟩)
  obtain ⟨found, foundHolds, links⟩ := ChainField.chain_at path
  rw [holds] at foundHolds
  cases foundHolds
  have bucketLinks : node.item.bucket = ⟨before.getLast?, after.head?⟩ := links
  obtain ⟨nodes, step, rewires, newPath⟩ := ChainField.detach_spec path
  have absent : index ∉ before ++ after :=
    (List.nodup_middle.1 (ChainField.chain_nodup path)).notMem
  have unlinked := unlinkBucket_eq holds inBounds (by rw [bucketLinks]; exact step)
  simp only [bucketLinks] at unlinked
  refine ⟨_, nodes, unlinked,
    housed.replace inBounds newPath (bucketAt_of_rewires rewires _) ?_ ?_ ?_, rewires.agree⟩
  · intro other
    rw [rest other, and_right_comm, ← members other]
    constructor
    · intro isOther
      have different : other ≠ index := fun same => absent (same ▸ isOther)
      exact ⟨by simpa [different] using isOther, different⟩
    · rintro ⟨isOther, different⟩
      simpa [different] using isOther
  · intro otherFirst otherLast otherChain apart otherPath
    refine rewires.chain otherPath fun other otherMember touched => ?_
    have elsewhere := (apart other otherMember).2
    have onChain : other ∈ before ++ index :: after := by
      simp only [List.mem_cons, List.not_mem_nil, or_false] at touched
      rcases touched with isLast | isHead
      · exact List.mem_append_left _ (List.mem_of_getLast? isLast.symm)
      · exact List.mem_append_right _ (List.mem_cons_of_mem _ (List.mem_of_head? isHead.symm))
    exact elsewhere ((members other).1 onChain).2
  · intro other elsewhere
    rw [rest other, and_iff_left]
    rintro rfl
    exact elsewhere isHere

/-! ## Searching -/

variable [BEq κ]

/-- Whether the node in a slot is the one for a key under a hash code. -/
def matchesAt (nodes : Slab (Node (Entry κ ν))) (hash : UInt32) (key : κ) (index : Nat) : Bool :=
  (nodes.get? index).any fun node => node.item.hash == hash && node.item.key == key

theorem matchesAt_iff {hash : UInt32} {key : κ} :
    matchesAt nodes hash key index = true ↔
      ∃ node, nodes.get? index = some node ∧
        node.item.hash = hash ∧ (node.item.key == key) = true := by
  rw [matchesAt]
  cases nodes.get? index <;> simp

/-- The search follows the chain and stops at the first node for the key. -/
theorem findFrom_eq {first last previous : Option Nat} (hash : UInt32) (key : κ) :
    ∀ {rest : List Nat} {fuel : Nat},
      Steps (bucketField.Adjacent nodes first last) previous (rest.map some) none →
      rest.length ≤ fuel →
        RoundCache.findFrom nodes hash key fuel rest.head? =
          .ok (rest.find? (matchesAt nodes hash key)) := by
  intro rest
  induction rest generalizing previous with
  | nil =>
      intro fuel _ _
      cases fuel <;> rfl
  | cons index rest inductionHypothesis =>
      intro fuel steps enough
      cases fuel with
      | zero => simp at enough
      | succ fuel =>
          rw [List.map_cons] at steps
          obtain ⟨node, holds, next⟩ :=
            ChainField.follower_eq_some_iff.1 steps.2.fromFirst.after
          rw [ChainField.headD_map_some] at next
          have onwards := inductionHypothesis steps.2 (Nat.le_of_succ_le_succ enough)
          have here : matchesAt nodes hash key index =
              (node.item.hash == hash && node.item.key == key) := by
            simp [matchesAt, holds]
          rw [List.head?_cons, RoundCache.findFrom, Slab.fetch_eq_ok_iff.2 holds, ok_bind,
            List.find?_cons, here]
          cases node.item.hash == hash && node.item.key == key with
          | true => rfl
          | false =>
              rw [show node.item.bucket.next = rest.head? from next]
              exact onwards

/-- A search finds a slot for the key, if there is one among those on the chains. -/
theorem find_cases {cache : RoundCache κ ν}
    (housed : Housed cache.buckets cache.list.nodes slots) (hash : UInt32) (key : κ) :
    (cache.find hash key = .ok none ∧
      ∀ index ∈ slots, matchesAt cache.list.nodes hash key index = false) ∨
    ∃ index ∈ slots, cache.find hash key = .ok (some index) ∧
      matchesAt cache.list.nodes hash key index = true := by
  have inBounds := housed.bucket_lt hash
  have isBucket := Array.getElem?_eq_getElem inBounds
  obtain ⟨last, chain, path, members⟩ := housed.house _ _ isBucket
  have found : cache.find hash key = .ok (chain.find? (matchesAt cache.list.nodes hash key)) := by
    rw [RoundCache.find, RoundCache.bucketOf, bucketHead_eq inBounds, ok_bind,
      ChainField.chain_first path]
    exact findFrom_eq hash key path.steps (ChainField.chain_length_le path)
  rw [found]
  cases result : chain.find? (matchesAt cache.list.nodes hash key) with
  | none =>
      refine .inl ⟨rfl, fun index member => ?_⟩
      by_contra matching
      rw [Bool.not_eq_false] at matching
      obtain ⟨node, holds, same⟩ := matchesAt_iff.1 matching
      have onChain : index ∈ chain := by
        refine (members index).2 ⟨member, ?_⟩
        rw [bucketAt, holds, Option.map_some, same.1]
      exact List.find?_eq_none.1 result index onChain matching
  | some index =>
      have onChain := List.mem_of_find?_eq_some result
      exact .inr ⟨index, ((members index).1 onChain).1, rfl, List.find?_some result⟩

end Housed

end BoundedCache.Round
