import BoundedCache.Proofs.Clock.Newcomers
import BoundedCache.Proofs.PlainStore
import BoundedCache.Proofs.Round.LastUse

/-!
# Below capacity all caches are the same plain map

As long as a plain store holds no more entries than a cache has room for, the cache has no reason
to drop any, and cannot be told from the store. This holds of finite maps, which have room for
everything, of caches in the order of last use, and of clock caches, however they hash or order
their keys. A map behind a wrapper answers as the map does.
-/

namespace BoundedCache

open PlainStore

variable {κ ν : Type}

/-! ## Finite maps -/

/-- The operations of a cache are those of a finite map in which `find` looks keys up. -/
structure IsFiniteMap {γ : Type} [BEq κ] [CacheLike γ κ ν] (find : γ → κ → Option ν) : Prop where
  get : ∀ (map : γ) (key : κ), CacheLike.get map key = .ok (map, find map key)
  put : ∀ (map : γ) (key : κ) (value : ν), ∃ after,
    CacheLike.put map key value = .ok (after, find map key) ∧
      (∀ other, find after other = if key == other then some value else find map other) ∧
      CacheLike.size after =
        if (find map key).isSome then CacheLike.size map else CacheLike.size map + 1
  remove : ∀ (map : γ) (key : κ), ∃ after,
    CacheLike.remove map key = .ok (after, find map key) ∧
      (∀ other, find after other = if key == other then none else find map other) ∧
      CacheLike.size after =
        if (find map key).isSome then CacheLike.size map - 1 else CacheLike.size map

theorem IsFiniteMap.servesPlainly {γ : Type} [BEq κ] [EquivBEq κ] [CacheLike γ κ ν]
    {find : γ → κ → Option ν} (finite : IsFiniteMap find) (capacity : Nat) :
    ServesPlainly capacity fun map entries => Tells entries (find map) (CacheLike.size map) := by
  intro map entries request tells _
  cases request with
  | get key =>
      refine ⟨map, ?_, tells⟩
      rw [CacheLike.serve, finite.get, answer, tells.find]
      rfl
  | put key value =>
      obtain ⟨after, step, finds, counts⟩ := finite.put map key value
      refine ⟨after, ?_, tells.put finds counts⟩
      rw [CacheLike.serve, step, answer, tells.find]
      rfl
  | remove key =>
      obtain ⟨after, step, finds, counts⟩ := finite.remove map key
      refine ⟨after, ?_, tells.remove finds counts⟩
      rw [CacheLike.serve, step, answer, tells.find]
      rfl
  | size =>
      refine ⟨map, ?_, tells⟩
      rw [CacheLike.serve, answer, tells.count]

section HashMaps

variable [BEq κ] [Hashable κ] [EquivBEq κ] [LawfulHashable κ]

/-- A key is stored under an equal key. -/
theorem getKeyD_beq_self (map : Std.HashMap κ ν) (key : κ) : map.getKeyD key key == key := by
  by_cases held : key ∈ map
  · have found := Std.HashMap.getKey_beq held
    rwa [Std.HashMap.getKey_eq_getKeyD] at found
  · rw [Std.HashMap.getKeyD_eq_fallback held]
    exact BEq.refl key

theorem size_insert_spelled {stored key : κ} (spelled : stored == key) (map : Std.HashMap κ ν)
    (value : ν) :
    (map.insert stored value).size = if map[key]?.isSome then map.size else map.size + 1 := by
  rw [Std.HashMap.size_insert]
  simp only [Std.HashMap.mem_congr spelled, Std.HashMap.mem_iff_isSome_getElem?]

theorem size_erase_eq (map : Std.HashMap κ ν) (key : κ) :
    (map.erase key).size = if map[key]?.isSome then map.size - 1 else map.size := by
  rw [Std.HashMap.size_erase]
  simp only [Std.HashMap.mem_iff_isSome_getElem?]

theorem isFiniteMap_hashMap : IsFiniteMap fun (map : Std.HashMap κ ν) key => map[key]? where
  get _ _ := rfl
  put map key value := by
    have spelled := getKeyD_beq_self map key
    refine ⟨_, rfl, fun other => ?_, size_insert_spelled spelled map value⟩
    rw [Std.HashMap.getElem?_insert, BEq.congr_left spelled]
  remove map key :=
    ⟨_, rfl, fun _ => Std.HashMap.getElem?_erase, size_erase_eq map key⟩

end HashMaps

section TreeMaps

variable {order : κ → κ → Ordering} [Std.TransCmp order]

/-- A key is stored under a key of the same place in the order. -/
theorem order_getKeyD_self (map : Std.TreeMap κ ν order) (key : κ) :
    order (map.getKeyD key key) key = .eq := by
  by_cases held : key ∈ map
  · have found := Std.TreeMap.compare_getKey_self held
    rwa [Std.TreeMap.getKey_eq_getKeyD] at found
  · rw [Std.TreeMap.getKeyD_eq_fallback held]
    exact Std.ReflCmp.compare_self

theorem isFiniteMap_treeMap [BEq κ] [Std.LawfulBEqCmp order] :
    IsFiniteMap fun (map : Std.TreeMap κ ν order) key => map[key]? where
  get _ _ := rfl
  put map key value := by
    have spelled := order_getKeyD_self map key
    refine ⟨_, rfl, fun other => ?_, ?_⟩
    · rw [Std.TreeMap.getElem?_insert, Std.TransCmp.congr_left spelled]
      simp only [Std.LawfulBEqCmp.compare_eq_iff_beq]
    · refine Std.TreeMap.size_insert.trans ?_
      rw [Std.TreeMap.contains_congr spelled, Std.TreeMap.contains_eq_isSome_getElem?]
      rfl
  remove map key := by
    refine ⟨_, rfl, fun other => ?_, ?_⟩
    · rw [Std.TreeMap.getElem?_erase]
      simp only [Std.LawfulBEqCmp.compare_eq_iff_beq]
    · refine Std.TreeMap.size_erase.trans ?_
      rw [Std.TreeMap.contains_eq_isSome_getElem?]
      rfl

end TreeMaps

/-! ## Maps behind a wrapper -/

section Wrappers

variable {μ γ : Type} [CacheLike μ κ ν] [CacheLike γ κ ν]

theorem valued_wrap (wrap : μ → γ) (operation : Checked (μ × Option ν)) :
    valued (do let (map, value) ← operation; return (wrap map, value)) =
      (valued operation).map fun (map, told) => (wrap map, told) := by
  cases operation <;> rfl

theorem MapBacked.serve_eq (map : μ) (request : StoreRequest κ ν) :
    CacheLike.serve (MapBacked.mk map) request =
      (CacheLike.serve map request).map fun (map, told) => (⟨map⟩, told) := by
  cases request with
  | get key => exact valued_wrap MapBacked.mk _
  | put key value => exact valued_wrap MapBacked.mk _
  | remove key => exact valued_wrap MapBacked.mk _
  | size => rfl

theorem LockedMap.serve_eq (map : μ) (request : StoreRequest κ ν) :
    CacheLike.serve (LockedMap.mk map) request =
      (CacheLike.serve map request).map fun (map, told) => (⟨map⟩, told) := by
  cases request with
  | get key => exact valued_wrap LockedMap.mk _
  | put key value => exact valued_wrap LockedMap.mk _
  | remove key => exact valued_wrap LockedMap.mk _
  | size => rfl

theorem PlainStore.ServesPlainly.wrapped [BEq κ] {capacity : Nat} {InStep : μ → List (κ × ν) → Prop}
    {wrap : μ → γ} (plainly : ServesPlainly capacity InStep)
    (serve : ∀ (map : μ) (request : StoreRequest κ ν), CacheLike.serve (wrap map) request =
      (CacheLike.serve map request).map fun (map, told) => (wrap map, told)) :
    ServesPlainly capacity fun cache entries => ∃ map, cache = wrap map ∧ InStep map entries := by
  rintro _ entries request ⟨map, rfl, inStep⟩ fits
  obtain ⟨after, step, stillInStep⟩ := plainly request inStep fits
  refine ⟨wrap after, ?_, after, rfl, stillInStep⟩
  rw [serve, step]
  rfl

end Wrappers

/-! ## Caches in the order of last use -/

/-- The request among those that only caches serve. -/
def StoreRequest.cached : StoreRequest κ ν → CacheRequest κ ν
  | .get key => .get key
  | .put key value => .put key value
  | .remove key => .remove key
  | .size => .size

section Recency

variable [BEq κ] [EquivBEq κ] {capacity : Nat} {entries recent : List (κ × ν)}

theorem PlainStore.value?_use (recent : List (κ × ν)) (key other : κ) :
    value? ((Recency.lookup recent key).toList ++ Recency.without recent key) other =
      value? recent other := by
  cases found : Recency.lookup recent key with
  | none =>
      rw [Recency.without_of_absent (Recency.lookup_eq_none_iff.1 found)]
      rfl
  | some entry =>
      refine (value?_front (Recency.key_of_lookup found) entry.2 other).trans ?_
      split
      · rename_i same
        rw [value?, ← Recency.lookup_congr same, found]
        rfl
      · rfl

omit [EquivBEq κ] in
/-- With room for a new key, a put drops nothing. -/
theorem PlainStore.next_put_eq (key : κ) (value : ν)
    (fits : (next recent (.put key value)).length ≤ capacity) :
    Recency.next capacity recent (.put key value) = next recent (.put key value) := by
  rw [Recency.next, next]
  cases found : Recency.lookup recent key with
  | none =>
      have unchanged := Recency.without_of_absent (Recency.lookup_eq_none_iff.1 found)
      have room : recent.length < capacity := by
        rwa [next, unchanged, List.length_cons] at fits
      rw [unchanged]
      simp only [Recency.makeRoom, if_pos room]
  | some entry => rfl

/-- A list in the order of last use follows a store that it has room for. -/
theorem PlainStore.Tells.recency (tells : Tells entries (value? recent) recent.length)
    (distinct : Recency.Distinct recent) (request : StoreRequest κ ν)
    (fits : (next entries request).length ≤ capacity) :
    let recent' := Recency.next capacity recent request.cached
    Recency.answer recent request.cached = answer entries request ∧
      Tells (next entries request) (value? recent') recent'.length := by
  cases request with
  | get key =>
      refine ⟨congrArg CacheAnswer.value (tells.find key), tells.distinct, fun other => ?_, ?_⟩
      · exact (value?_use recent key other).trans (tells.find other)
      · have length := distinct.length_without key
        rw [next, ← tells.count, length, StoreRequest.cached, Recency.next, List.length_append,
          Nat.add_comm]
  | put key value =>
      refine ⟨congrArg CacheAnswer.value (tells.find key), ?_⟩
      have after : Tells (next entries (.put key value)) (value? (next recent (.put key value)))
          (next recent (.put key value)).length :=
        tells.put (value?_front (BEq.refl key) value) (length_put distinct key value)
      rw [← after.count] at fits
      rw [StoreRequest.cached, next_put_eq key value fits]
      exact after
  | remove key =>
      refine ⟨congrArg CacheAnswer.value (tells.find key), ?_⟩
      exact tells.remove (value?_remove recent key) (length_remove distinct key)
  | size => exact ⟨congrArg CacheAnswer.count tells.count, tells⟩

/-- A cache that is a list in the order of last use. -/
theorem PlainStore.servesPlainly_of_recency {γ : Type} [CacheLike γ κ ν]
    {Recalls : γ → List (κ × ν) → Prop}
    (distinct : ∀ {cache recent}, Recalls cache recent → Recency.Distinct recent)
    (serve : ∀ {cache recent} (request : StoreRequest κ ν), Recalls cache recent → ∃ after,
      CacheLike.serve cache request = .ok (after, Recency.answer recent request.cached) ∧
        Recalls after (Recency.next capacity recent request.cached)) :
    ServesPlainly capacity fun cache entries =>
      ∃ recent, Recalls cache recent ∧ Tells entries (value? recent) recent.length := by
  rintro cache entries request ⟨recent, recalls, tells⟩ fits
  obtain ⟨after, step, recallsNext⟩ := serve request recalls
  obtain ⟨told, tellsNext⟩ := tells.recency (distinct recalls) request fits
  rw [told] at step
  exact ⟨after, step, _, recallsNext, tellsNext⟩

end Recency

/-! ## Operations and requests -/

section Requests

variable {γ : Type}

theorem valued_eq_do (operation : Checked (γ × Option ν)) :
    valued operation = (do let (cache, value) ← operation; return (cache, .value value)) := by
  cases operation <;> rfl

theorem valued_eq_answer (operation : Checked (γ × Option ν)) :
    valued operation =
      (do let (cache, value) ← operation
          return (cache, { answer := .value value }) : Checked (γ × CacheOutcome κ ν)).map
        fun served => (served.1, served.2.answer) := by
  cases operation <;> rfl

theorem valued_put_eq_answer {ρ : Type} (operation : Checked (γ × ρ)) (previous : ρ → Option ν)
    (evicted : ρ → List κ) :
    valued (do let (cache, result) ← operation; return (cache, previous result)) =
      (do let (cache, result) ← operation
          return (cache, { answer := .value (previous result), evicted := evicted result }) :
        Checked (γ × CacheOutcome κ ν)).map
        fun served => (served.1, served.2.answer) := by
  cases operation <;> rfl

variable [BEq κ] [Hashable κ]

theorem AccessMap.serve_cached (map : AccessMap κ ν) (request : StoreRequest κ ν) :
    CacheLike.serve map request = map.serve request.cached := by
  cases request with
  | get key => exact valued_eq_do (map.get key)
  | put key value => exact valued_eq_do (map.put key value)
  | remove key => exact valued_eq_do (map.remove key)
  | size => rfl

theorem RoundCache.serve_cached (cache : RoundCache κ ν) (request : StoreRequest κ ν) :
    CacheLike.serve cache request =
      (cache.serve request.cached).map fun served => (served.1, served.2.answer) := by
  cases request with
  | get key => exact valued_eq_answer (cache.get key)
  | put key value => exact valued_put_eq_answer (cache.put key value) _ _
  | remove key => exact valued_eq_answer (cache.remove key)
  | size => rfl

theorem ClockCache.serve_cached (cache : ClockCache κ ν) (request : StoreRequest κ ν) :
    CacheLike.serve cache request =
      (cache.serve request.cached).map fun served => (served.1, served.2.answer) := by
  cases request with
  | get key => exact valued_eq_answer (cache.get key)
  | put key value => exact valued_put_eq_answer (cache.put key value) _ _
  | remove key => exact valued_eq_answer (cache.remove key)
  | size => rfl

end Requests

/-! ## Access maps and round caches -/

section Bounded

variable [BEq κ] [EquivBEq κ] [Hashable κ] [LawfulHashable κ]

theorem AccessMap.servesPlainly (capacity : Nat) :
    ServesPlainly capacity fun (map : AccessMap κ ν) entries => ∃ recent,
      map.Recalls capacity recent ∧ Tells entries (value? recent) recent.length := by
  apply servesPlainly_of_recency (fun recalls => recalls.1.distinct)
  rintro map recent request ⟨shows, rfl⟩
  obtain ⟨served, step, showsNext, sameCapacity⟩ := shows.serve request.cached
  exact ⟨served, (map.serve_cached request).trans step, showsNext,
    congrArg Capacity.val sameCapacity⟩

theorem RoundCache.servesPlainly (limit : Nat) :
    ServesPlainly limit fun (cache : RoundCache κ ν) entries => ∃ recent,
      cache.Recalls limit recent ∧ Tells entries (value? recent) recent.length := by
  apply servesPlainly_of_recency
  · rintro cache recent ⟨timeline, start, base, shows, timely, sameLimit, named, matching, distinct⟩
    exact distinct
  · intro cache recent request recalls
    obtain ⟨served, outcome, step, told, _, recallsNext⟩ := recalls.serve request.cached
    refine ⟨served, ?_, recallsNext⟩
    rw [cache.serve_cached, step, ← told]
    rfl

/-! ## Clock caches -/

theorem PlainStore.Tells.plainMap {entries : List (κ × ν)} {map : Std.HashMap κ ν}
    (tells : Tells entries (fun key => map[key]?) map.size) (request : StoreRequest κ ν) :
    let map' := PlainMap.next map request.cached
    PlainMap.answer map request.cached = answer entries request ∧
      Tells (next entries request) (fun key => map'[key]?) map'.size := by
  cases request with
  | get key => exact ⟨congrArg CacheAnswer.value (tells.find key), tells⟩
  | put key value =>
      refine ⟨congrArg CacheAnswer.value (tells.find key), ?_⟩
      exact tells.put (fun _ => Std.HashMap.getElem?_insert)
        (size_insert_spelled (BEq.refl key) map value)
  | remove key =>
      refine ⟨congrArg CacheAnswer.value (tells.find key), ?_⟩
      exact tells.remove (fun _ => Std.HashMap.getElem?_erase) (size_erase_eq map key)
  | size => exact ⟨congrArg CacheAnswer.count tells.count, tells⟩

/-- A map that grows has room for what it adds. -/
theorem PlainMap.size_next_of_adds {map : Std.HashMap κ ν} {request : CacheRequest κ ν}
    (adds : PlainMap.adds map request) : (PlainMap.next map request).size = map.size + 1 := by
  cases request with
  | put key value =>
      have isNew : ¬ key ∈ map := by simpa [PlainMap.adds] using adds
      exact Std.HashMap.size_insert.trans (if_neg isNew)
  | _ => contradiction

theorem ClockCache.servesPlainly (limit : Nat) :
    ServesPlainly limit fun (cache : ClockCache κ ν) entries => ∃ dials map,
      cache.Houses dials map ∧ cache.size ≤ cache.limit ∧ cache.limit = limit ∧
        Tells entries (fun key => map[key]?) map.size := by
  rintro cache entries request ⟨dials, map, houses, within, rfl, tells⟩ fits
  obtain ⟨after, outcome, dialsAfter, step, answers, housesAfter, stillWithin, sameLimit⟩ :=
    houses.serve within request.cached
  obtain ⟨told, tellsNext⟩ := tells.plainMap request
  have noVictim : outcome.evicted = [] := by
    apply List.eq_nil_of_length_eq_zero
    rw [answers.evicted, if_neg]
    rintro ⟨adds, full⟩
    -- A victim takes a new key in a full cache, for which the store has no room either.
    rw [← tellsNext.count, PlainMap.size_next_of_adds adds, full] at fits
    exact Nat.not_succ_le_self _ fits
  rw [PlainMap.follow, noVictim, List.foldl_nil] at housesAfter
  refine ⟨after, ?_, dialsAfter, _, housesAfter, stillWithin, sameLimit, tellsNext⟩
  rw [cache.serve_cached, step, ← told, ← answers.answer]
  rfl

end Bounded

/-! ## All caches -/

/-- The new caches with this hash function that have room for `capacity` entries answer like
this. -/
structure HashedCachesAnswer [BEq κ] [Hashable κ] (capacity : Capacity)
    (requests : List (StoreRequest κ ν)) (answers : List (CacheAnswer ν)) : Prop where
  hashMap : Answers (⟨∅⟩ : MapBacked (Std.HashMap κ ν)) requests answers
  lockedHashMap : Answers (⟨∅⟩ : LockedMap (Std.HashMap κ ν)) requests answers
  accessMap : Answers (.empty capacity : AccessMap κ ν) requests answers
  backedAccessMap : Answers (⟨.empty capacity⟩ : MapBacked (AccessMap κ ν)) requests answers
  lockedAccessMap : Answers (⟨.empty capacity⟩ : LockedMap (AccessMap κ ν)) requests answers
  roundCache : RoundCache.minLimit < capacity.val → ∃ fresh : RoundCache κ ν,
    RoundCache.ofLimit capacity.val = .ok fresh ∧ Answers fresh requests answers
  clockCache : ∀ (concurrency : Nat) (fresh : ClockCache κ ν),
    ClockCache.ofLimit capacity.val concurrency = .ok fresh → Answers fresh requests answers

section Caches

variable [BEq κ] [EquivBEq κ] {entries : List (κ × ν)} {requests : List (StoreRequest κ ν)}
  {answers : List (CacheAnswer ν)}

theorem hashedCaches_answer [Hashable κ] [LawfulHashable κ] {capacity : Capacity}
    (fits : Fits capacity.val [] requests)
    (stored : serveAll PlainStore.serve [] requests = .ok (entries, answers)) :
    HashedCachesAnswer capacity requests answers := by
  have hashMaps := (isFiniteMap_hashMap (κ := κ) (ν := ν)).servesPlainly capacity.val
  have noKeys : Tells ([] : List (κ × ν)) (fun key => (∅ : Std.HashMap κ ν)[key]?)
      (∅ : Std.HashMap κ ν).size :=
    .nil (fun _ => Std.HashMap.getElem?_empty) Std.HashMap.size_empty
  have unused : Tells ([] : List (κ × ν)) (value? []) ([] : List (κ × ν)).length :=
    .nil (fun _ => rfl) rfl
  have accessMaps := AccessMap.servesPlainly (κ := κ) (ν := ν) capacity.val
  have emptyAccessMap : (AccessMap.empty capacity : AccessMap κ ν).Recalls capacity.val [] :=
    ⟨AccessMap.shows_empty capacity, rfl⟩
  exact {
    hashMap := (hashMaps.wrapped MapBacked.serve_eq).answers requests ⟨∅, rfl, noKeys⟩ fits stored
    lockedHashMap :=
      (hashMaps.wrapped LockedMap.serve_eq).answers requests ⟨∅, rfl, noKeys⟩ fits stored
    accessMap := accessMaps.answers requests ⟨[], emptyAccessMap, unused⟩ fits stored
    backedAccessMap := (accessMaps.wrapped MapBacked.serve_eq).answers requests
      ⟨_, rfl, [], emptyAccessMap, unused⟩ fits stored
    lockedAccessMap := (accessMaps.wrapped LockedMap.serve_eq).answers requests
      ⟨_, rfl, [], emptyAccessMap, unused⟩ fits stored
    roundCache := fun large => by
      obtain ⟨fresh, built, recalls⟩ := RoundCache.recalls_of_ofLimit (κ := κ) (ν := ν) large
      refine ⟨fresh, built, ?_⟩
      exact (RoundCache.servesPlainly capacity.val).answers requests ⟨[], recalls, unused⟩ fits
        stored
    clockCache := fun concurrency fresh built => by
      obtain ⟨houses, empty, isLimit⟩ := ClockCache.Houses.ofLimit built
      have within : fresh.size ≤ fresh.limit := empty ▸ Nat.zero_le _
      exact (ClockCache.servesPlainly capacity.val).answers requests
        ⟨_, ∅, houses, within, isLimit, noKeys⟩ fits stored }

theorem orderedMaps_answer {order : κ → κ → Ordering} [Std.TransCmp order]
    [Std.LawfulBEqCmp order] {capacity : Nat} (fits : Fits capacity [] requests)
    (stored : serveAll PlainStore.serve [] requests = .ok (entries, answers)) :
    Answers (⟨∅⟩ : MapBacked (Std.TreeMap κ ν order)) requests answers ∧
      Answers (⟨∅⟩ : LockedMap (Std.TreeMap κ ν order)) requests answers := by
  have finite : IsFiniteMap fun (map : Std.TreeMap κ ν order) key => map[key]? :=
    isFiniteMap_treeMap
  have treeMaps := finite.servesPlainly capacity
  have noKeys : Tells ([] : List (κ × ν)) (fun key => (∅ : Std.TreeMap κ ν order)[key]?)
      (∅ : Std.TreeMap κ ν order).size :=
    .nil (fun _ => Std.TreeMap.getElem?_emptyc) Std.TreeMap.size_emptyc
  exact ⟨(treeMaps.wrapped MapBacked.serve_eq).answers requests ⟨∅, rfl, noKeys⟩ fits stored,
    (treeMaps.wrapped LockedMap.serve_eq).answers requests ⟨∅, rfl, noKeys⟩ fits stored⟩

/-- A history that fits into a capacity is answered alike by all caches of this capacity, namely
as by a plain store, whatever hash functions and orders they use. -/
theorem caches_answer_as_plain_store (capacity : Capacity)
    (requests : List (StoreRequest κ ν)) (fits : Fits capacity.val [] requests) :
    ∃ (entries : List (κ × ν)) (answers : List (CacheAnswer ν)),
      serveAll PlainStore.serve [] requests = .ok (entries, answers) ∧
      (∀ [Hashable κ] [LawfulHashable κ], HashedCachesAnswer capacity requests answers) ∧
      ∀ (order : κ → κ → Ordering) [Std.TransCmp order] [Std.LawfulBEqCmp order],
        Answers (⟨∅⟩ : MapBacked (Std.TreeMap κ ν order)) requests answers ∧
        Answers (⟨∅⟩ : LockedMap (Std.TreeMap κ ν order)) requests answers := by
  obtain ⟨entries, answers, stored⟩ := exists_answers requests ([] : List (κ × ν))
  exact ⟨entries, answers, stored, hashedCaches_answer fits stored,
    fun _ => orderedMaps_answer fits stored⟩

end Caches

/-- The smallest clock cache is filled to the last place. The smallest round cache, an access map
behind a lock and a tree map are filled, and then changed while they are full. -/
theorem caches_answer_as_plain_store_when_full :
    (∃ (clock : ClockCache Nat Nat) (entries : List (Nat × Nat)) (answers : List (CacheAnswer Nat)),
      let requests := (List.range 1524).map fun number => .put number (number + 1)
      Fits 1524 [] requests ∧ ClockCache.ofLimit 1524 16 = .ok clock ∧
      serveAll PlainStore.serve [] requests = .ok (entries, answers) ∧
      Answers clock requests answers) ∧
    ∃ (round : RoundCache Nat Nat) (entries : List (Nat × Nat)) (answers : List (CacheAnswer Nat)),
      let requests := ((List.range 51).map fun number => .put number (number + 1)) ++
        [.put 0 7, .size, .remove 3, .put 60 1, .get 3]
      Fits 51 [] requests ∧ RoundCache.ofLimit 51 = .ok round ∧
      serveAll PlainStore.serve [] requests = .ok (entries, answers) ∧
      Answers round requests answers ∧
      Answers (⟨.empty ⟨51, by decide⟩⟩ : LockedMap (AccessMap Nat Nat)) requests answers ∧
      Answers (⟨∅⟩ : MapBacked (Std.TreeMap Nat Nat compare)) requests answers := by
  constructor
  · have fits : Fits 1524 []
        ((List.range 1524).map fun number : Nat => .put number (number + 1)) :=
      fits_of_length_le _ (by simp)
    obtain ⟨clock, built⟩ := ClockCache.exists_smallest (κ := Nat) (ν := Nat)
    obtain ⟨entries, answers, stored, hashed, _⟩ :=
      caches_answer_as_plain_store ⟨1524, by decide⟩ _ fits
    exact ⟨clock, entries, answers, fits, built, stored, hashed.clockCache 16 clock built⟩
  · have fits : Fits 51 [] (((List.range 51).map fun number : Nat => .put number (number + 1)) ++
        [.put 0 7, .size, .remove 3, .put 60 1, .get 3]) := by
      decide +kernel
    obtain ⟨entries, answers, stored, hashed, ordered⟩ :=
      caches_answer_as_plain_store ⟨51, by decide⟩ _ fits
    obtain ⟨round, built, roundAnswers⟩ := hashed.roundCache (by decide)
    exact ⟨round, entries, answers, fits, built, stored, roundAnswers, hashed.lockedAccessMap,
      (ordered compare).1⟩

end BoundedCache
