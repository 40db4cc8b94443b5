import BoundedCache.Key
import BoundedCache.Proofs.Access.Refinement

/-!
# All operations of an access map

Beside the requests that every cache serves, an access map tells its entries in their order, looks
at one without using it, exchanges a value in place, and hands out the entry that was not used for
longest. Each of these is the operation on the list in the order of last use, and the index and the
handle list stay in step, so no operation meets a handle that leads nowhere.
-/

namespace BoundedCache

variable {κ ν : Type}

/-! ## Requests and answers -/

/-- What can be asked of an access map. -/
inductive AccessRequest (κ ν : Type) where
  | cached (request : CacheRequest κ ν)
  /-- The value is replaced where it stands, so the key keeps its spelling. -/
  | exchange (key : κ) (value : ν)
  | peek (key : κ)
  | popOldest
  | oldest
  | list

/-- What an access map answers. -/
inductive AccessAnswer (κ ν : Type) where
  | cached (answer : CacheAnswer ν)
  | entry (entry : Option (κ × ν))
  | entries (entries : List (κ × ν))

/-- Serves a request. -/
def AccessMap.respond [BEq κ] [Hashable κ] (map : AccessMap κ ν) :
    AccessRequest κ ν → Checked (AccessMap κ ν × AccessAnswer κ ν)
  | .cached request => do
      let (map, answer) ← map.serve request
      return (map, .cached answer)
  | .exchange key value => do
      let (map, old) ← map.exchange key value
      return (map, .cached (.value old))
  | .peek key => return (map, .cached (.value (map.peek key)))
  | .popOldest => do
      let (map, entry) ← map.popOldest
      return (map, .entry entry)
  | .oldest => return (map, .entry (← map.oldest?))
  | .list => return (map, .entries (← map.toList))

namespace Recency

variable [BEq κ]

/-- What the list answers. -/
def reply (entries : List (κ × ν)) : AccessRequest κ ν → AccessAnswer κ ν
  | .cached request => .cached (answer entries request)
  | .exchange key _ => .cached (.value ((lookup entries key).map Prod.snd))
  | .peek key => .cached (.value ((lookup entries key).map Prod.snd))
  | .popOldest => .entry entries.getLast?
  | .oldest => .entry entries.getLast?
  | .list => .entries entries

/-- What becomes of the list. -/
def after (capacity : Nat) (entries : List (κ × ν)) : AccessRequest κ ν → List (κ × ν)
  | .cached request => next capacity entries request
  | .exchange key value =>
      ((lookup entries key).map fun entry => (entry.1, value)).toList ++ without entries key
  | .peek _ => entries
  | .popOldest => entries.dropLast
  | .oldest => entries
  | .list => entries

/-- Serves a request on the list. -/
def respond (capacity : Nat) (entries : List (κ × ν)) (request : AccessRequest κ ν) :
    Checked (List (κ × ν) × AccessAnswer κ ν) :=
  .ok (after capacity entries request, reply entries request)

end Recency

namespace AccessMap

variable [BEq κ] [Hashable κ] {map : AccessMap κ ν} {entries : List (κ × ν)}

/-- A request succeeds as it does on the list. -/
def Answers (map : AccessMap κ ν) (entries : List (κ × ν)) (request : AccessRequest κ ν) : Prop :=
  ∃ served, map.respond request = .ok (served, Recency.reply entries request) ∧
    served.Shows (Recency.after map.capacity.val entries request) ∧
    served.capacity = map.capacity

/-! ## Operations on the list -/

namespace Shows

theorem toList (shows : map.Shows entries) : map.toList = .ok entries := by
  obtain ⟨cells, holds, _, rfl⟩ := shows.laidOut
  exact holds.toList_eq

theorem oldest? (shows : map.Shows entries) : map.oldest? = .ok entries.getLast? := by
  obtain ⟨cells, holds, _, rfl⟩ := shows.laidOut
  exact holds.last?_eq

variable [EquivBEq κ]

theorem peek (shows : map.Shows entries) (key : κ) :
    map.peek key = (Recency.lookup entries key).map Prod.snd := by
  rcases shows.find_cases key with ⟨noHandle, missed, _⟩ |
    ⟨before, handle, entry, after, isHandle, found, _, _, _, holds, _⟩
  · rw [AccessMap.peek, noHandle, missed]
    rfl
  · have isEntry := holds.get? (List.mem_append_right before List.mem_cons_self)
    rw [AccessMap.peek, isHandle, found, Option.bind_some, isEntry]

theorem exchange (shows : map.Shows entries) (key : κ) (value : ν) :
    map.Answers entries (.exchange key value) := by
  rcases shows.find_cases key with ⟨noHandle, missed, absent⟩ |
    ⟨before, handle, entry, after, isHandle, found, named, others, split, holds, indexes⟩
  · refine ⟨{ map with counters := ⟨map.counters.core.countMiss⟩ }, ?_, ?_, rfl⟩
    · simp [respond, AccessMap.exchange, use, noHandle, Recency.reply, missed]
    · rw [Recency.after, missed, Recency.without_of_absent absent]
      exact ⟨shows.distinct, shows.laidOut, shows.size⟩
  · obtain ⟨nodes, moved, movedHolds⟩ := holds.bringToFront
    have isEntry := movedHolds.get? List.mem_cons_self
    rw [← List.nil_append ((handle, entry) :: _)] at movedHolds
    obtain ⟨_, sameCapacity, replaced⟩ := movedHolds.replace (entry.1, value)
    have movedIndexes : Indexes map.index ([] ++ (handle, entry) :: (before ++ after)) :=
      indexes.of_perm List.perm_middle.symm
    let revised :=
      (({ map.entries with nodes } : HandleList (κ × ν)).replace handle (entry.1, value)).1
    refine ⟨{ map with entries := revised, counters := ⟨map.counters.core.countHit⟩ }, ?_, ?_,
      sameCapacity⟩
    · simp [respond, AccessMap.exchange, use, isHandle, moved, isEntry, Recency.reply, found,
        revised]
    · have distinct := shows.distinct
      rw [split, List.map_append, List.map_cons] at distinct
      rw [Recency.after, found, others]
      refine ⟨?_, ⟨_, replaced, movedIndexes.replace (BEq.refl entry.1), rfl⟩, ?_⟩
      · rw [List.map_append]
        exact distinct.front (BEq.refl entry.1) value
      · refine shows.size.trans ?_
        rw [split]
        simp only [List.length_append, List.length_cons, List.length_map, Option.toList_some,
          Option.map_some, List.length_nil]
        omega

variable [LawfulHashable κ]

theorem takeOldest (shows : map.Shows entries) : map.Answers entries .popOldest := by
  rcases List.eq_nil_or_concat' entries with rfl | ⟨others, entry, rfl⟩
  · obtain ⟨cells, holds, _, noCells⟩ := shows.laidOut
    cases List.map_eq_nil_iff.1 noCells
    refine ⟨map, ?_, shows, rfl⟩
    simp [AccessMap.respond, AccessMap.popOldest, holds.popBack_nil, Recency.reply]
  · obtain ⟨smaller, popped, showsOthers, sameCapacity, _⟩ := shows.popOldest
    refine ⟨smaller, ?_, ?_, sameCapacity⟩
    · simp [AccessMap.respond, popped, Recency.reply]
    · rw [Recency.after, List.dropLast_concat]
      exact showsOthers

theorem respond (shows : map.Shows entries) (request : AccessRequest κ ν) :
    map.Answers entries request := by
  cases request with
  | cached request =>
      obtain ⟨served, step, showsNext, sameCapacity⟩ := shows.serve request
      refine ⟨served, ?_, showsNext, sameCapacity⟩
      rw [AccessMap.respond, step]
      rfl
  | exchange key value => exact shows.exchange key value
  | peek key =>
      refine ⟨map, ?_, shows, rfl⟩
      rw [AccessMap.respond, shows.peek key]
      rfl
  | popOldest => exact shows.takeOldest
  | oldest =>
      refine ⟨map, ?_, shows, rfl⟩
      rw [AccessMap.respond, shows.oldest?]
      rfl
  | list =>
      refine ⟨map, ?_, shows, rfl⟩
      rw [AccessMap.respond, shows.toList]
      rfl

end Shows

/-! ## Index and list in step -/

/-- Each key of the index leads to an entry for it, and each node of the list beside the sentinels
is led to by exactly one key. -/
structure InStep (map : AccessMap κ ν) : Prop where
  leads : ∀ key handle, (key, handle) ∈ map.index.toList →
    ∃ entry, map.entries.get? handle = some entry ∧ entry.1 == key
  led : ∀ handle, HandleList.isSentinel handle = false →
    (map.entries.nodes.get? handle).isSome → ∃! pair, pair ∈ map.index.toList ∧ pair.2 = handle

/-- What an operation looks for in the list is there, so none takes the way out that is left for
a handle without a value. -/
structure Unfailing (map : AccessMap κ ν) : Prop where
  adds : ∀ (key : κ) (value : ν), map.index[key]? = none → ∃ roomy list handle,
    map.makeRoom = .ok roomy ∧ roomy.entries.add (key, value) = .ok (list, some handle)
  pops : ∀ list key value, map.entries.popBack = .ok (list, some (key, value)) → key ∈ map.index
  removes : ∀ (key : κ) (handle : Nat), map.index[key]? = some handle →
    ∃ list entry, map.entries.remove handle = .ok (list, some entry)
  revises : ∀ (key : κ) (handle : Nat) (other : κ × ν), map.index[key]? = some handle →
    ∃ list entry, map.entries.bringToFront handle = .ok list ∧
      list.get? handle = some entry ∧ (list.replace handle other).2 = some entry

namespace Shows

variable [EquivBEq κ] [LawfulHashable κ]

theorem inStep (shows : map.Shows entries) : map.InStep := by
  obtain ⟨cells, holds, indexes, rfl⟩ := shows.laidOut
  have leads : ∀ key handle, (key, handle) ∈ map.index.toList →
      ∃ entry, (handle, entry) ∈ cells ∧ entry.1 == key := fun key handle isPair =>
    (indexes key handle).1 (Std.HashMap.getElem?_eq_some_iff_exists_beq_and_mem_toList.2
      ⟨key, BEq.refl key, isPair⟩)
  refine ⟨fun key handle isPair => ?_, fun handle notSentinel stored => ?_⟩
  · obtain ⟨entry, member, named⟩ := leads key handle isPair
    exact ⟨entry, holds.get? member, named⟩
  · obtain ⟨entry, member⟩ := holds.mem_of_node notSentinel stored
    obtain ⟨key, _, isPair⟩ := Std.HashMap.getElem?_eq_some_iff_exists_beq_and_mem_toList.1
      (indexes.eq_some member (BEq.refl entry.1))
    refine ⟨(key, handle), ⟨isPair, rfl⟩, ?_⟩
    rintro ⟨other, _⟩ ⟨otherPair, rfl⟩
    obtain ⟨first, firstMember, named⟩ := leads key _ isPair
    obtain ⟨second, secondMember, otherNamed⟩ := leads other _ otherPair
    have sameEntry : first = second := by
      have values := (holds.get? firstMember).symm.trans (holds.get? secondMember)
      exact Option.some.inj values
    subst sameEntry
    have sameKey := Std.HashMap.getKey?_congr (m := map.index)
      (PartialEquivBEq.trans (PartialEquivBEq.symm otherNamed) named)
    rw [(Std.HashMap.mem_toList_iff_getKey?_eq_some_and_getElem?_eq_some.1 isPair).1,
      (Std.HashMap.mem_toList_iff_getKey?_eq_some_and_getElem?_eq_some.1 otherPair).1] at sameKey
    rw [Option.some.inj sameKey]

theorem unfailing (shows : map.Shows entries) : map.Unfailing := by
  have found : ∀ {key : κ} {handle}, map.index[key]? = some handle → ∃ before entry after,
      map.entries.Holds (before ++ (handle, entry) :: after) := by
    intro key handle isHandle
    rcases shows.find_cases key with ⟨noHandle, _⟩ |
      ⟨before, other, entry, after, isOther, _, _, _, _, holds, _⟩
    · rw [isHandle] at noHandle
      contradiction
    · rw [isHandle] at isOther
      cases isOther
      exact ⟨before, entry, after, holds⟩
  refine ⟨fun key value missing => ?_, fun list key value popped => ?_,
    fun key handle isHandle => ?_, fun key handle other isHandle => ?_⟩
  · obtain ⟨roomy, made, showsRoomy, sameCapacity, _⟩ := shows.makeRoom
    obtain ⟨cells, holds, _, split⟩ := showsRoomy.laidOut
    have room : cells.length < roomy.entries.capacity.val := by
      have room := Recency.length_makeRoom_lt map.capacity.pos shows.length_le
      rw [← split, List.length_map, ← sameCapacity] at room
      exact room
    obtain ⟨nodes, handle, added, _⟩ := holds.add room (key, value)
    exact ⟨roomy, _, handle, made, added⟩
  · obtain ⟨cells, holds, indexes, _⟩ := shows.laidOut
    rcases List.eq_nil_or_concat' cells with rfl | ⟨before, ⟨handle, entry⟩, rfl⟩
    · rw [holds.popBack_nil] at popped
      cases popped
    · obtain ⟨nodes, step, _⟩ := holds.popBack
      rw [step] at popped
      cases popped
      rw [Std.HashMap.mem_iff_isSome_getElem?,
        indexes.eq_some (List.mem_append_right before (List.mem_singleton_self _)) (BEq.refl key)]
      rfl
  · obtain ⟨before, entry, after, holds⟩ := found isHandle
    obtain ⟨nodes, removed, _⟩ := holds.remove
    exact ⟨_, entry, removed⟩
  · obtain ⟨before, entry, after, holds⟩ := found isHandle
    obtain ⟨nodes, moved, movedHolds⟩ := holds.bringToFront
    have isEntry := movedHolds.get? List.mem_cons_self
    rw [← List.nil_append ((handle, entry) :: _)] at movedHolds
    exact ⟨_, entry, moved, isEntry, (movedHolds.replace other).1⟩

end Shows

/-! ## Histories -/

/-- A fresh access map serves every history as the list in the order of last use does. Afterwards
it tells that list, which is not longer than the capacity and names no key twice, and index and
handle list are in step. -/
theorem is_recency_list [EquivBEq κ] [LawfulHashable κ] (capacity : Capacity)
    (requests : List (AccessRequest κ ν)) :
    ∃ (map : AccessMap κ ν) (entries : List (κ × ν)) (answers : List (AccessAnswer κ ν)),
      serveAll respond (empty capacity) requests = .ok (map, answers) ∧
      serveAll (Recency.respond capacity.val) [] requests = .ok (entries, answers) ∧
      Recency.Distinct entries ∧ map.toList = .ok entries ∧
      map.size = entries.length ∧ entries.length ≤ capacity.val ∧
      map.InStep ∧ map.Unfailing := by
  have recalls : (empty capacity : AccessMap κ ν).Recalls capacity.val [] :=
    ⟨shows_empty capacity, rfl⟩
  have step : ∀ {map : AccessMap κ ν} {entries} (request : AccessRequest κ ν),
      map.Recalls capacity.val entries → ∃ map' entries' answer,
        map.respond request = .ok (map', answer) ∧
        Recency.respond capacity.val entries request = .ok (entries', answer) ∧
        map'.Recalls capacity.val entries' := by
    rintro map entries request ⟨shows, sameCapacity⟩
    obtain ⟨served, answered, showsNext, stillCapacity⟩ := shows.respond request
    rw [sameCapacity] at showsNext
    exact ⟨served, _, _, answered, rfl, showsNext,
      (congrArg Capacity.val stillCapacity).trans sameCapacity⟩
  obtain ⟨map, entries, answers, run, listRun, shows, sameCapacity⟩ :=
    serveAll_related step requests recalls
  exact ⟨map, entries, answers, run, listRun, shows.distinct, shows.toList, shows.size,
    sameCapacity ▸ shows.length_le, shows.inStep, shows.unfailing⟩

/-- Two spellings of one key in a map for two entries: the second spelling replaces the first in
the list. -/
theorem is_recency_list_respelled_key :
    ∃ map : @AccessMap Key Nat _ KeyHashing.fnv.hashable,
      serveAll (@respond Key Nat _ KeyHashing.fnv.hashable)
        (@empty Key Nat _ KeyHashing.fnv.hashable ⟨2, by decide⟩)
        [ .cached (.put ⟨.text "A", .text "a"⟩ 1), .cached (.put ⟨.text "b", .text "b"⟩ 2),
          .cached (.put ⟨.text "a", .text "a"⟩ 3), .oldest, .list ] =
        .ok (map,
          [ .cached (.value none), .cached (.value none), .cached (.value (some 1)),
            .entry (some (⟨.text "b", .text "b"⟩, 2)),
            .entries [(⟨.text "a", .text "a"⟩, 3), (⟨.text "b", .text "b"⟩, 2)] ]) := by
  obtain ⟨map, entries, answers, run, listRun, _⟩ :=
    @is_recency_list Key Nat _ KeyHashing.fnv.hashable _ KeyHashing.fnv.lawfulHashable
      ⟨2, by decide⟩
      [ .cached (.put ⟨.text "A", .text "a"⟩ 1), .cached (.put ⟨.text "b", .text "b"⟩ 2),
        .cached (.put ⟨.text "a", .text "a"⟩ 3), .oldest, .list ]
  cases listRun
  exact ⟨map, run⟩

end AccessMap

end BoundedCache
