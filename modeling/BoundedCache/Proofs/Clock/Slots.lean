import BoundedCache.Proofs.Clock.Requests
import BoundedCache.Proofs.Clock.Safety
import BoundedCache.Proofs.Slots
import BoundedCache.Proofs.Storage

/-!
# The slots of a clock cache

A shard makes a slot only for a new entry that finds all slots filled. Lookups and removals make
none, and neither do the sweeps of a put, which come after the new entry is stored. So the shard
needs the most slots when a put has stored its entry and has not evicted another one yet.
-/

namespace BoundedCache

open Clock

variable {κ ν : Type}

/-! ## Tables -/

namespace Clock.Table

variable {table middle after : Table κ ν} {dial : Dial κ ν} {hash : UInt32} {key : κ}

/-- No slot is made or given up, and the number of buckets is the same. -/
structure KeepsSlots (before after : Table κ ν) : Prop where
  slots : after.nodes.slots.size = before.nodes.slots.size
  buckets : after.buckets = before.buckets

namespace KeepsSlots

theorem refl (table : Table κ ν) : table.KeepsSlots table :=
  ⟨rfl, rfl⟩

theorem trans (first : table.KeepsSlots middle) (second : middle.KeepsSlots after) :
    table.KeepsSlots after :=
  ⟨second.slots.trans first.slots, second.buckets.trans first.buckets⟩

theorem of_alike {nodes : Slab (Node κ ν)} (alike : table.nodes.Alike nodes) :
    table.KeepsSlots { table with nodes } :=
  ⟨alike.size, rfl⟩

theorem tally (keeps : table.KeepsSlots middle) (event : Counters → Counters) :
    table.KeepsSlots (middle.tally event) :=
  ⟨keeps.slots, keeps.buckets⟩

theorem vacate (keeps : table.KeepsSlots middle) (index : Nat) :
    table.KeepsSlots (middle.vacate index).1 :=
  ⟨(Slab.size_slots_erase _ _).trans keeps.slots, keeps.buckets⟩

end KeepsSlots

/-! ### Sweeps -/

theorem alike_of_sweepFrom {hand : Nat} (budget : Nat) :
    ∀ {nodes swept : Slab (Node κ ν)} {index passed : Nat} {ending : SweepEnd},
      sweepFrom hand nodes budget index = .ok (swept, passed, ending) → nodes.Alike swept := by
  induction budget with
  | zero =>
      intro nodes swept index passed ending step
      cases step
      exact .refl nodes
  | succ budget inductionHypothesis =>
      intro nodes swept index passed ending step
      rw [sweepFrom] at step
      split at step
      · cases step
        exact .refl nodes
      · obtain ⟨aged, modified, step⟩ := exists_of_bind_eq_ok step
        obtain ⟨node, _, step⟩ := exists_of_bind_eq_ok step
        have first := Slab.alike_of_modify modified
        split at step
        · cases step
          exact first
        · obtain ⟨⟨final, count, last⟩, others, step⟩ := exists_of_bind_eq_ok step
          cases step
          exact first.trans (inductionHypothesis others)

theorem keepsSlots_of_evict {index : Nat} {victim : Option (Entry κ ν)}
    (step : table.evict index = .ok (after, victim)) : table.KeepsSlots after := by
  obtain ⟨offBucket, first, step⟩ := exists_of_bind_eq_ok step
  obtain ⟨moved, second, step⟩ := exists_of_bind_eq_ok step
  obtain ⟨offRing, third, step⟩ := exists_of_bind_eq_ok step
  cases step
  have alike := ((LinkField.alike_of_detach first).trans
    (LinkField.alike_of_moveAfter second)).trans (LinkField.alike_of_detach third)
  exact ((KeepsSlots.of_alike alike).tally _).vacate index

theorem keepsSlots_of_park {index : Nat} (step : table.park index = .ok after) :
    table.KeepsSlots after := by
  obtain ⟨moved, moves, step⟩ := exists_of_bind_eq_ok step
  cases step
  exact ⟨(LinkField.alike_of_moveAfter moves).size, rfl⟩

theorem keepsSlots_of_sweep {victim : Option (Entry κ ν)}
    (step : table.sweep = .ok (after, victim)) : table.KeepsSlots after := by
  obtain ⟨hand, _, step⟩ := exists_of_bind_eq_ok step
  dsimp only at step
  split at step
  · cases step
    exact .refl table
  · obtain ⟨⟨nodes, passed, ending⟩, swept, step⟩ := exists_of_bind_eq_ok step
    have counted : table.KeepsSlots (({ table with nodes } : Table κ ν).countSweep passed) :=
      ⟨(alike_of_sweepFrom _ swept).size, rfl⟩
    cases ending with
    | lapped =>
        cases step
        exact counted
    | exhausted index =>
        obtain ⟨parked, parks, step⟩ := exists_of_bind_eq_ok step
        cases step
        exact counted.trans (keepsSlots_of_park parks)
    | victim index => exact counted.trans (keepsSlots_of_evict step)

/-! ### Requests -/

variable [BEq κ]

theorem keepsSlots_of_get {value : Option ν} (step : table.get hash key = .ok (after, value)) :
    table.KeepsSlots after := by
  obtain ⟨found, _, step⟩ := exists_of_bind_eq_ok step
  cases found with
  | none =>
      cases step
      exact (KeepsSlots.refl table).tally _
  | some index =>
      obtain ⟨node, _, step⟩ := exists_of_bind_eq_ok step
      obtain ⟨nodes, modified, step⟩ := exists_of_bind_eq_ok step
      cases step
      exact (KeepsSlots.of_alike (Slab.alike_of_modify modified)).tally _

theorem keepsSlots_of_remove {value : Option ν}
    (step : table.remove hash key = .ok (after, value)) : table.KeepsSlots after := by
  obtain ⟨found, _, step⟩ := exists_of_bind_eq_ok step
  cases found with
  | none =>
      cases step
      exact .refl table
  | some index =>
      obtain ⟨offBucket, first, step⟩ := exists_of_bind_eq_ok step
      obtain ⟨offRing, second, step⟩ := exists_of_bind_eq_ok step
      cases step
      have alike := (LinkField.alike_of_detach first).trans (LinkField.alike_of_detach second)
      exact ((KeepsSlots.of_alike alike).vacate index).tally _

theorem Shows.room (shows : table.Shows dial) :
    table.buckets + 1 + table.size ≤ table.nodes.slots.size := by
  obtain ⟨cells, chains, layout, _⟩ := shows.laidOut
  exact shows.occupied ▸ layout.wellFormed.occupied_le

/-- Slots are made for the nodes that the table has afterwards, if at all. -/
structure Fits (before after : Table κ ν) : Prop where
  slots : after.nodes.slots.size = max before.nodes.slots.size (before.buckets + 1 + after.size)
  buckets : after.buckets = before.buckets

theorem KeepsSlots.fits (keeps : table.KeepsSlots after) (shows : after.Shows dial) :
    table.Fits after where
  slots := by
    have room := shows.room
    rw [keeps.slots, keeps.buckets] at room
    rw [keeps.slots, Nat.max_eq_left room]
  buckets := keeps.buckets

/-- A put needs another node only for a new entry. -/
theorem fits_of_put (shows : table.Shows dial) {value : ν} {previous : Option ν}
    (step : table.put hash key value = .ok (after, previous)) : table.Fits after := by
  obtain ⟨cells, chains, layout, _⟩ := shows.laidOut
  obtain ⟨found, _, step⟩ := exists_of_bind_eq_ok step
  cases found with
  | none =>
      obtain ⟨added, adds, step⟩ := exists_of_bind_eq_ok step
      cases step
      obtain ⟨onBucket, first, adds⟩ := exists_of_bind_eq_ok adds
      obtain ⟨onRing, second, adds⟩ := exists_of_bind_eq_ok adds
      cases adds
      have alike :=
        (LinkField.alike_of_insertAfter first).trans (LinkField.alike_of_insertAfter second)
      have size := alike.size.trans (layout.wellFormed.size_insert _)
      rw [shows.occupied] at size
      exact ⟨size, rfl⟩
  | some index =>
      obtain ⟨node, _, step⟩ := exists_of_bind_eq_ok step
      obtain ⟨nodes, modified, step⟩ := exists_of_bind_eq_ok step
      cases step
      exact ⟨(Slab.alike_of_modify modified).size.trans (Nat.max_eq_left shows.room).symm, rfl⟩

omit [BEq κ] in
theorem slots_clear (table : Table κ ν) :
    table.clear.nodes.slots.size = table.buckets + 1 := by
  simp [clear, empty, Slab.ofArray]

/-! ### Storage -/

/-- A table keeps its anchors and its hand in slots as well as its entries, and is done with a
request at once. -/
def storage (buckets : Nat) : Storage (Table κ ν) (Request κ ν) (Reply κ ν) where
  serve := Table.serve
  Amid _ _ _ := False
  clears
    | .clear => true
    | _ => false
  held := Table.size
  slots table := table.nodes.slots.size
  reserved := buckets + 1

theorem fits_of_serve (shows : table.Shows dial) {rest : Dial κ ν} (showsAfter : after.Shows rest)
    {request : Request κ ν} (clearsNot : (storage table.buckets).clears request = false)
    {reply : Reply κ ν} (served : table.serve request = .ok (after, reply)) :
    table.Fits after := by
  cases request with
  | get hash key =>
      obtain ⟨⟨next, value⟩, step, ends⟩ := exists_of_bind_eq_ok served
      cases ends
      exact (keepsSlots_of_get step).fits showsAfter
  | put hash key value =>
      obtain ⟨⟨next, old⟩, step, ends⟩ := exists_of_bind_eq_ok served
      cases ends
      exact fits_of_put shows step
  | remove hash key =>
      obtain ⟨⟨next, value⟩, step, ends⟩ := exists_of_bind_eq_ok served
      cases ends
      exact (keepsSlots_of_remove step).fits showsAfter
  | sweep =>
      obtain ⟨⟨next, victim⟩, step, ends⟩ := exists_of_bind_eq_ok served
      cases ends
      exact (keepsSlots_of_sweep step).fits showsAfter
  | clear => contradiction

theorem reuses [PartialEquivBEq κ] {buckets : Nat} :
    (storage buckets : Storage (Table κ ν) _ _).Reuses fun table =>
      (∃ dial, table.Shows dial) ∧ table.buckets = buckets where
  room := by
    rintro table ⟨⟨dial, shows⟩, rfl⟩
    exact shows.room
  serves := by
    rintro table request ⟨⟨dial, shows⟩, rfl⟩
    obtain ⟨after, served, showsAfter, sameBuckets⟩ := shows.serve request
    refine ⟨after, _, served, ⟨⟨_, showsAfter⟩, sameBuckets⟩, fun clearsNot => ?_, fun clears => ?_⟩
    · have fits := fits_of_serve shows showsAfter clearsNot served
      exact .of_size shows.room (fun _ amid => amid.elim) fits.slots
    · cases request with
      | clear =>
          cases served
          exact ⟨slots_clear table, fun _ => id⟩
      | _ => contradiction

/-- However its operations follow one another, a table has as many slots as it needed at most. -/
theorem economical_of_ofBuckets [PartialEquivBEq κ] {buckets : Nat} {fresh : Table κ ν}
    (built : ofBuckets buckets = .ok fresh) : (storage buckets).Economical fresh := by
  have shows := shows_of_ofBuckets built
  rw [ofBuckets] at built
  split at built
  · cases built
    exact reuses.economical ⟨⟨_, shows⟩, rfl⟩ (slots_clear (empty buckets))
  · contradiction

end Clock.Table

/-! ## Shards -/

namespace ClockCache

variable {cache middle after : ClockCache κ ν} {shards others : Array (Table κ ν)} {index : Nat}

/-- The shard at a position. -/
def shardAt (shards : Array (Table κ ν)) (index : Nat) : Table κ ν :=
  shards[index]?.getD default

theorem shardAt_of_lt (inBounds : index < shards.size) : shardAt shards index = shards[index] := by
  simp [shardAt, inBounds]

/-- The number of shards is the same, and so are the slots and buckets of the one at the
position. -/
structure KeepsShard (index : Nat) (before after : Array (Table κ ν)) : Prop where
  shardCount : after.size = before.size
  slots : (shardAt before index).KeepsSlots (shardAt after index)

theorem KeepsShard.refl (shards : Array (Table κ ν)) : KeepsShard index shards shards :=
  ⟨rfl, .refl _⟩

theorem KeepsShard.trans {last : Array (Table κ ν)} (first : KeepsShard index shards others)
    (second : KeepsShard index others last) : KeepsShard index shards last :=
  ⟨second.shardCount.trans first.shardCount, first.slots.trans second.slots⟩

/-- A step on one shard replaces it or, at another position, leaves the shard there alone. -/
theorem shardAt_of_onShard {β : Type} {position : Nat} {answer : β}
    {step : Table κ ν → Checked (Table κ ν × β)}
    (ran : onShard shards position step = .ok (others, answer)) :
    others.size = shards.size ∧ (shardAt others index = shardAt shards index ∨
      step (shardAt shards index) = .ok (shardAt others index, answer)) := by
  by_cases inBounds : position < shards.size
  · rw [onShard_of_lt inBounds] at ran
    cases stepped : step shards[position] with
    | error fault =>
        rw [stepped] at ran
        contradiction
    | ok outcome =>
        rw [stepped] at ran
        cases ran
        refine ⟨Array.size_set _, ?_⟩
        by_cases here : position = index
        · subst here
          rw [shardAt_of_lt inBounds, stepped, shardAt_of_lt (by simpa using inBounds)]
          simp
        · exact .inl (by rw [shardAt, Array.getElem?_set_ne inBounds here, shardAt])
  · rw [onShard, dif_neg inBounds] at ran
    contradiction

theorem keepsShard_of_onShard {β : Type} {position : Nat} {answer : β}
    {step : Table κ ν → Checked (Table κ ν × β)}
    (ran : onShard shards position step = .ok (others, answer))
    (keeps : ∀ {table next}, step table = .ok (next, answer) → table.KeepsSlots next) :
    KeepsShard index shards others := by
  obtain ⟨size, same | stepped⟩ := shardAt_of_onShard ran
  · exact ⟨size, same ▸ .refl _⟩
  · exact ⟨size, keeps stepped⟩

theorem keepsShard_of_sweepNext {victim : Option (Entry κ ν)}
    (step : cache.sweepNext = .ok (after, victim)) :
    KeepsShard index cache.shards after.shards := by
  obtain ⟨⟨shards, found⟩, swept, step⟩ := exists_of_bind_eq_ok step
  cases step
  exact keepsShard_of_onShard swept Table.keepsSlots_of_sweep

theorem keepsShard_of_evictWithin (fuel : Nat) :
    ∀ {cache : ClockCache κ ν} {sweeps : Nat} {eviction : Option (Eviction κ ν)},
      evictWithin fuel sweeps cache = .ok (after, eviction) →
        KeepsShard index cache.shards after.shards := by
  induction fuel with
  | zero =>
      intro cache sweeps eviction step
      cases step
      exact .refl _
  | succ fuel inductionHypothesis =>
      intro cache sweeps eviction step
      rw [evictWithin] at step
      split at step
      · cases step
        exact .refl _
      · obtain ⟨⟨middle, victim⟩, swept, step⟩ := exists_of_bind_eq_ok step
        have first : KeepsShard index cache.shards middle.shards := keepsShard_of_sweepNext swept
        cases victim with
        | some victim =>
            cases step
            exact first
        | none => exact first.trans (inductionHypothesis step)

/-- The shard at the position exists and has this many buckets. -/
structure HasShard (buckets index : Nat) (shards : Array (Table κ ν)) : Prop where
  inBounds : index < shards.size
  buckets : (shardAt shards index).buckets = buckets

theorem HasShard.keepsShard {buckets : Nat} (hasShard : HasShard buckets index shards)
    (keeps : KeepsShard index shards others) : HasShard buckets index others :=
  ⟨keeps.shardCount ▸ hasShard.inBounds, keeps.slots.buckets.trans hasShard.buckets⟩

theorem HasShard.clear {buckets : Nat} (hasShard : HasShard buckets index cache.shards) :
    HasShard buckets index cache.clear.shards ∧
      (shardAt cache.clear.shards index).nodes.slots.size =
        buckets + 1 + (shardAt cache.clear.shards index).size := by
  have inBounds : index < cache.clear.shards.size := by
    simpa [ClockCache.clear] using hasShard.inBounds
  have cleared : shardAt cache.clear.shards index = (shardAt cache.shards index).clear := by
    rw [shardAt_of_lt inBounds, shardAt_of_lt hasShard.inBounds]
    simp [ClockCache.clear]
  rw [cleared, Table.slots_clear, hasShard.buckets]
  refine ⟨⟨inBounds, ?_⟩, rfl⟩
  rw [cleared]
  exact hasShard.buckets

/-- Every shard of a new cache is empty. -/
theorem shardAt_of_ofLimit {limit concurrency : Nat} {fresh : ClockCache κ ν}
    (built : ofLimit limit concurrency = .ok fresh) (inBounds : index < fresh.shardCount) :
    shardAt fresh.shards index = .empty fresh.geometry.buckets := by
  obtain ⟨geometry, _, built⟩ := exists_of_bind_eq_ok built
  obtain ⟨shard, shardBuilt, built⟩ := exists_of_bind_eq_ok built
  cases built
  rw [Table.ofBuckets] at shardBuilt
  split at shardBuilt
  · cases shardBuilt
    exact (shardAt_of_lt inBounds).trans (Array.getElem_replicate _)
  · contradiction

/-! ## Storage -/

/-- Sweeps without a victim, which a cache over its limit makes one after another. -/
inductive Fruitless : ClockCache κ ν → ClockCache κ ν → Prop where
  | start {cache : ClockCache κ ν} : Fruitless cache cache
  | more {cache middle after : ClockCache κ ν} (earlier : Fruitless cache middle)
      (tooMany : middle.limit < middle.size) (swept : middle.sweepNext = .ok (after, none)) :
      Fruitless cache after

theorem Fruitless.keepsShard (fruitless : Fruitless cache after) :
    KeepsShard index cache.shards after.shards := by
  induction fruitless with
  | start => exact .refl _
  | more earlier tooMany swept inductionHypothesis =>
      exact inductionHypothesis.trans (keepsShard_of_sweepNext swept)

variable [BEq κ] [Hashable κ]

/-- The states amid a request: those of a put that has stored a new key, before the sweeps and
between them. -/
inductive Amid (cache : ClockCache κ ν) : CacheRequest κ ν → ClockCache κ ν → Prop where
  | put {key : κ} {value : ν} {shards : Array (Table κ ν)} {passed : ClockCache κ ν}
      (stored : onShard cache.shards (cache.geometry.shardOf (HashCode.avalanched key))
        (fun shard => shard.put (HashCode.avalanched key) key value) = .ok (shards, none))
      (fruitless : Fruitless { cache with shards, size := cache.size + 1 } passed) :
      Amid cache (.put key value) passed

/-- One shard of a cache. It keeps its anchors and its hand in slots as well. -/
def shardStorage (buckets index : Nat) :
    Storage (ClockCache κ ν) (CacheRequest κ ν) (CacheOutcome κ ν) where
  serve := ClockCache.serve
  Amid := Amid
  clears := CacheRequest.clears
  held cache := (shardAt cache.shards index).size
  slots cache := (shardAt cache.shards index).nodes.slots.size
  reserved := buckets + 1

variable {buckets : Nat} {dials : Nat → Dial κ ν} {map : Std.HashMap κ ν}
  {request : CacheRequest κ ν}

theorem Houses.shows_shardAt (houses : cache.Houses dials map)
    (inBounds : index < cache.shards.size) :
    (shardAt cache.shards index).Shows (dials index) :=
  shardAt_of_lt inBounds ▸ houses.shows index inBounds

theorem HasShard.room (hasShard : HasShard buckets index cache.shards)
    (houses : cache.Houses dials map) :
    buckets + 1 + (shardAt cache.shards index).size ≤
      (shardAt cache.shards index).nodes.slots.size := by
  have room := (houses.shows_shardAt hasShard.inBounds).room
  rwa [hasShard.buckets] at room

theorem Fruitless.exists_houses [EquivBEq κ] (fruitless : Fruitless cache after) :
    ∀ {dials : Nat → Dial κ ν}, cache.Houses dials map → ∃ turned, after.Houses turned map := by
  induction fruitless with
  | start => exact fun houses => ⟨_, houses⟩
  | more earlier tooMany swept inductionHypothesis =>
      intro dials houses
      obtain ⟨turned, housesMiddle⟩ := inductionHypothesis houses
      exact ⟨_, (housesMiddle.of_sweepNext_none swept).2.2⟩

/-- A request that keeps the slots of the shard and passes through no other state. -/
theorem HasShard.grows_of_keepsShard (hasShard : HasShard buckets index cache.shards)
    (intact : cache.Intact) (intactAfter : after.Intact)
    (keeps : KeepsShard index cache.shards after.shards)
    (atOnce : ∀ passed, ¬ Amid cache request passed) :
    (shardStorage buckets index).Grows ((shardStorage buckets index).During cache request after)
      cache after := by
  obtain ⟨dials, map, houses, _⟩ := intact
  obtain ⟨turned, next, housesAfter, _⟩ := intactAfter
  exact .of_same (hasShard.room houses) ((hasShard.keepsShard keeps).room housesAfter)
    keeps.slots.slots atOnce

section Requests

variable [EquivBEq κ] [LawfulHashable κ] {passed : ClockCache κ ν} {key : κ} {value : ν}

theorem Amid.exists_houses (amid : Amid cache request passed) (houses : cache.Houses dials map) :
    ∃ turned next, passed.Houses turned next := by
  obtain @⟨key, value, shards, _, stored, fruitless⟩ := amid
  obtain ⟨same, stores, housesStored⟩ := houses.store key value
  obtain ⟨rfl, isNew⟩ := Prod.mk.inj (Except.ok.inj (stored.symm.trans stores))
  rw [← isNew] at housesStored
  obtain ⟨turned, housesPassed⟩ := fruitless.exists_houses housesStored
  exact ⟨turned, _, housesPassed⟩

omit [EquivBEq κ] [LawfulHashable κ] in
/-- The shard of the key makes a slot for a new entry at most, the others make none. -/
theorem HasShard.of_store (hasShard : HasShard buckets index cache.shards)
    (houses : cache.Houses dials map) {previous : Option ν}
    (stored : onShard cache.shards (cache.geometry.shardOf (HashCode.avalanched key))
      (fun shard => shard.put (HashCode.avalanched key) key value) = .ok (shards, previous)) :
    HasShard buckets index shards ∧
      (shardAt shards index).nodes.slots.size =
        max (shardAt cache.shards index).nodes.slots.size
          (buckets + 1 + (shardAt shards index).size) := by
  have shows := houses.shows_shardAt hasShard.inBounds
  have fits : shards.size = cache.shards.size ∧
      (shardAt cache.shards index).Fits (shardAt shards index) := by
    obtain ⟨size, same | stepped⟩ := shardAt_of_onShard stored
    · refine ⟨size, ?_⟩
      rw [same]
      exact (Table.KeepsSlots.refl _).fits shows
    · exact ⟨size, Table.fits_of_put shows stepped⟩
  obtain ⟨size, slots, sameBuckets⟩ := fits
  rw [hasShard.buckets] at slots sameBuckets
  exact ⟨⟨size ▸ hasShard.inBounds, sameBuckets⟩, slots⟩

/-- A put makes a slot for the state in which the new entry is stored. -/
theorem HasShard.grows_of_put (hasShard : HasShard buckets index cache.shards)
    (intact : cache.Intact) (intactAfter : after.Intact) {result : PutResult κ ν}
    (step : cache.put key value = .ok (after, result)) :
    HasShard buckets index after.shards ∧
      (shardStorage buckets index).Grows
        ((shardStorage buckets index).During cache (.put key value) after) cache after := by
  obtain ⟨dials, map, houses, _⟩ := intact
  obtain ⟨_, _, housesAfter, _⟩ := intactAfter
  have room := hasShard.room houses
  obtain ⟨⟨shards, previous⟩, stored, step⟩ := exists_of_bind_eq_ok step
  obtain ⟨hasStored, slots⟩ := hasShard.of_store houses stored
  cases previous with
  | some old =>
      cases step
      refine ⟨hasStored, .of_size room ?_ slots⟩
      rintro passed ⟨storedToo, _⟩
      cases stored.symm.trans storedToo
  | none =>
      obtain ⟨⟨evicted, eviction⟩, evicts, step⟩ := exists_of_bind_eq_ok step
      cases step
      have keeps : KeepsShard index shards after.shards := keepsShard_of_evictWithin _ evicts
      have hasAfter := hasStored.keepsShard keeps
      -- The sweeps give no slot up, so the state before the first one is the one that counts.
      refine ⟨hasAfter, .of_highest (.inl (.put stored .start)) room (hasAfter.room housesAfter) ?_
        (keeps.slots.slots.trans slots)⟩
      intro passed amid
      obtain ⟨turned, next, housesPassed⟩ := amid.exists_houses houses
      obtain ⟨storedToo, fruitless⟩ := amid
      cases stored.symm.trans storedToo
      have keepsPassed : KeepsShard index shards passed.shards := fruitless.keepsShard
      have hasPassed := hasStored.keepsShard keepsPassed
      exact ⟨hasPassed.room housesPassed,
        Nat.le_of_eq (keepsPassed.slots.slots.trans keeps.slots.slots.symm)⟩

/-- The cache is intact and has the shard with this many buckets. -/
def Stocks (buckets index : Nat) (cache : ClockCache κ ν) : Prop :=
  cache.Intact ∧ HasShard buckets index cache.shards

/-- Every request either clears the slots of a shard or grows them. -/
theorem reuses_shard :
    (shardStorage buckets index : Storage (ClockCache κ ν) _ _).Reuses (Stocks buckets index) where
  room := by
    rintro cache ⟨⟨dials, map, houses, _⟩, hasShard⟩
    exact hasShard.room houses
  serves := by
    rintro cache request ⟨intact, hasShard⟩
    obtain ⟨after, outcome, accounted⟩ := intact.accounted request
    have served := accounted.served
    have intactAfter := accounted.kept
    have of_keepsShard : request.clears = false →
        KeepsShard index cache.shards after.shards → (∀ passed, ¬ Amid cache request passed) →
        (shardStorage buckets index).Serves (Stocks buckets index) cache request after outcome := by
      intro clearsNot keeps atOnce
      refine ⟨served, ⟨intactAfter, hasShard.keepsShard keeps⟩, fun _ => ?_, fun clears => ?_⟩
      · exact hasShard.grows_of_keepsShard intact intactAfter keeps atOnce
      · exact absurd (clears.symm.trans clearsNot) Bool.noConfusion
    refine ⟨after, outcome, ?_⟩
    cases request with
    | get key =>
        obtain ⟨⟨next, value⟩, step, ends⟩ := exists_of_bind_eq_ok served
        obtain ⟨⟨shards, _⟩, ran, step⟩ := exists_of_bind_eq_ok step
        cases step
        cases ends
        exact of_keepsShard rfl (keepsShard_of_onShard ran Table.keepsSlots_of_get) nofun
    | put key value =>
        obtain ⟨⟨next, result⟩, step, ends⟩ := exists_of_bind_eq_ok served
        cases ends
        obtain ⟨hasAfter, grows⟩ := hasShard.grows_of_put intact intactAfter step
        exact ⟨served, ⟨intactAfter, hasAfter⟩, fun _ => grows, nofun⟩
    | remove key =>
        obtain ⟨⟨next, value⟩, step, ends⟩ := exists_of_bind_eq_ok served
        obtain ⟨⟨shards, _⟩, ran, step⟩ := exists_of_bind_eq_ok step
        cases step
        cases ends
        exact of_keepsShard rfl (keepsShard_of_onShard ran Table.keepsSlots_of_remove) nofun
    | contains key =>
        obtain ⟨isHeld, _, ends⟩ := exists_of_bind_eq_ok served
        cases ends
        exact of_keepsShard rfl (.refl _) nofun
    | size =>
        cases served
        exact of_keepsShard rfl (.refl _) nofun
    | clear =>
        cases served
        obtain ⟨hasAfter, slots⟩ := hasShard.clear
        exact ⟨rfl, ⟨intactAfter, hasAfter⟩, nofun, fun _ => ⟨slots, nofun⟩⟩

/-- From a new cache on, every shard has as many slots as it needed at most. -/
theorem economical_of_ofLimit {limit concurrency : Nat} {fresh : ClockCache κ ν}
    (built : ofLimit limit concurrency = .ok fresh) (inBounds : index < fresh.shardCount) :
    (shardStorage (shardAt fresh.shards index).buckets index).Economical fresh := by
  have stocks : fresh.Stocks (shardAt fresh.shards index).buckets index :=
    ⟨(intact_of_ofLimit built).1, inBounds, rfl⟩
  refine reuses_shard.economical stocks ?_
  simp only [shardStorage, Storage.needs, shardAt_of_ofLimit built inBounds]
  exact Table.slots_clear (Table.empty fresh.geometry.buckets)

end Requests

end ClockCache

end BoundedCache
