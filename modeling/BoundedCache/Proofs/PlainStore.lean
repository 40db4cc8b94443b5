import BoundedCache.CacheLike
import BoundedCache.Proofs.Access.Recency
import Mathlib.Data.List.Infix

/-!
# Plain stores

A plain store is a list of values under distinct keys. It knows neither hash codes nor an order of
keys and drops nothing on its own account, so it says what a cache means while there is room for
everything. A cache that is in step with a store and stays so, as long as the store is within some
capacity, answers every history that fits into this capacity as the store does.
-/

namespace BoundedCache

variable {κ ν : Type}

/-! ## Requests -/

/-- What can be asked of anything that serves as a cache. -/
inductive StoreRequest (κ ν : Type) where
  | get (key : κ)
  | put (key : κ) (value : ν)
  | remove (key : κ)
  | size

/-- Answers with the value that an operation hands out. -/
def valued {γ : Type} (operation : Checked (γ × Option ν)) : Checked (γ × CacheAnswer ν) :=
  operation.map fun (cache, value) => (cache, .value value)

/-- Serves a request by the operations of a cache. -/
def CacheLike.serve {γ : Type} [CacheLike γ κ ν] (cache : γ) :
    StoreRequest κ ν → Checked (γ × CacheAnswer ν)
  | .get key => valued (CacheLike.get cache key)
  | .put key value => valued (CacheLike.put cache key value)
  | .remove key => valued (CacheLike.remove cache key)
  | .size => .ok (cache, .count (CacheLike.size cache))

/-- The cache answers the requests like this. -/
def Answers {γ : Type} [CacheLike γ κ ν] (fresh : γ) (requests : List (StoreRequest κ ν))
    (answers : List (CacheAnswer ν)) : Prop :=
  ∃ final, serveAll CacheLike.serve fresh requests = .ok (final, answers)

namespace PlainStore

variable [BEq κ]

/-! ## Stores -/

/-- The value of a key. -/
def value? (entries : List (κ × ν)) (key : κ) : Option ν :=
  (Recency.lookup entries key).map Prod.snd

/-- What the store answers. -/
def answer (entries : List (κ × ν)) : StoreRequest κ ν → CacheAnswer ν
  | .get key => .value (value? entries key)
  | .put key _ => .value (value? entries key)
  | .remove key => .value (value? entries key)
  | .size => .count entries.length

/-- What becomes of the store. -/
def next (entries : List (κ × ν)) : StoreRequest κ ν → List (κ × ν)
  | .get _ => entries
  | .put key value => (key, value) :: Recency.without entries key
  | .remove key => Recency.without entries key
  | .size => entries

def serve (entries : List (κ × ν)) (request : StoreRequest κ ν) :
    Checked (List (κ × ν) × CacheAnswer ν) :=
  .ok (next entries request, answer entries request)

/-- The store holds no more than `capacity` entries before, while and after it serves the
requests. -/
def Fits (capacity : Nat) (entries : List (κ × ν)) (requests : List (StoreRequest κ ν)) : Prop :=
  ∀ earlier, earlier <+: requests → (earlier.foldl next entries).length ≤ capacity

instance (capacity : Nat) (entries : List (κ × ν)) (requests : List (StoreRequest κ ν)) :
    Decidable (Fits capacity entries requests) :=
  decidable_of_iff (∀ earlier ∈ requests.inits, (earlier.foldl next entries).length ≤ capacity)
    (by simp only [List.mem_inits, Fits])

theorem Fits.first {capacity : Nat} {entries : List (κ × ν)} {request : StoreRequest κ ν}
    {rest : List (StoreRequest κ ν)} (fits : Fits capacity entries (request :: rest)) :
    (next entries request).length ≤ capacity :=
  fits [request] (List.prefix_append [request] rest)

theorem Fits.rest {capacity : Nat} {entries : List (κ × ν)} {request : StoreRequest κ ν}
    {rest : List (StoreRequest κ ν)} (fits : Fits capacity entries (request :: rest)) :
    Fits capacity (next entries request) rest :=
  fun earlier isEarlier => fits (request :: earlier)
    (List.prefix_cons_inj request |>.2 isEarlier)

/-- Every request takes up room for at most one more entry. -/
theorem length_next_le (entries : List (κ × ν)) (request : StoreRequest κ ν) :
    (next entries request).length ≤ entries.length + 1 := by
  have fewer (key : κ) : (Recency.without entries key).length ≤ entries.length :=
    List.length_filter_le _ entries
  cases request with
  | get key => exact Nat.le_succ _
  | put key value => exact Nat.succ_le_succ (fewer key)
  | remove key => exact Nat.le_succ_of_le (fewer key)
  | size => exact Nat.le_succ _

theorem fits_of_length_le {capacity : Nat} (requests : List (StoreRequest κ ν)) :
    ∀ {entries : List (κ × ν)}, entries.length + requests.length ≤ capacity →
      Fits capacity entries requests := by
  induction requests with
  | nil =>
      intro entries room earlier isEarlier
      rw [List.prefix_nil.1 isEarlier]
      exact room
  | cons request rest inductionHypothesis =>
      intro entries room earlier isEarlier
      have grown := length_next_le entries request
      rw [List.length_cons] at room
      rcases List.prefix_cons_iff.1 isEarlier with rfl | ⟨earlierRest, rfl, isRest⟩
      · rw [List.foldl_nil]
        omega
      · exact inductionHypothesis (by omega) earlierRest isRest

-- A history that fits may still put more often than there is room.
example : Fits 1 [] [.put 1 10, .put 1 20, .remove 1, .put 2 30] := by decide

/-! ## Contents -/

section Contents

variable [EquivBEq κ] {entries : List (κ × ν)} {key : κ}

theorem value?_remove (entries : List (κ × ν)) (key other : κ) :
    value? (Recency.without entries key) other =
      if key == other then none else value? entries other := by
  rw [value?, Recency.lookup_without]
  split <;> rfl

/-- An entry in front hides the others for its key. -/
theorem value?_front {stored : κ} (spelled : stored == key) (value : ν) (other : κ) :
    value? ((stored, value) :: Recency.without entries key) other =
      if key == other then some value else value? entries other := by
  by_cases same : key == other
  · have holds : stored == other := PartialEquivBEq.trans spelled same
    rw [if_pos same, value?, Recency.lookup, List.find?_cons, holds]
    rfl
  · have elsewhere : (stored == other) = false := by
      rw [Bool.eq_false_iff]
      exact fun holds => same (PartialEquivBEq.trans (PartialEquivBEq.symm spelled) holds)
    have others := value?_remove entries key other
    rw [if_neg same] at others ⊢
    rw [value?, Recency.lookup, List.find?_cons, elsewhere]
    exact others

/-- A key that is found takes up room for one entry. -/
theorem length_eq (distinct : Recency.Distinct entries) (key : κ) :
    entries.length = (Recency.without entries key).length +
      if (value? entries key).isSome then 1 else 0 := by
  rw [distinct.length_without key, value?]
  cases Recency.lookup entries key <;> rfl

theorem length_put (distinct : Recency.Distinct entries) (key : κ) (value : ν) :
    (next entries (.put key value)).length =
      if (value? entries key).isSome then entries.length else entries.length + 1 := by
  have others := length_eq distinct key
  rw [next, List.length_cons]
  by_cases held : (value? entries key).isSome
  · rw [if_pos held] at others ⊢
    exact others.symm
  · rw [if_neg held] at others ⊢
    rw [others]

theorem length_remove (distinct : Recency.Distinct entries) (key : κ) :
    (next entries (.remove key)).length =
      if (value? entries key).isSome then entries.length - 1 else entries.length := by
  have others := length_eq distinct key
  rw [next]
  by_cases held : (value? entries key).isSome
  · rw [if_pos held] at others ⊢
    exact Nat.eq_sub_of_add_eq others.symm
  · rw [if_neg held] at others ⊢
    exact others.symm

/-- Lookups find the values of the store, and there are as many keys as it has entries. -/
structure Tells (entries : List (κ × ν)) (find : κ → Option ν) (count : Nat) : Prop where
  distinct : Recency.Distinct entries
  find : ∀ key, find key = value? entries key
  count : count = entries.length

namespace Tells

variable {find found : κ → Option ν} {count counted : Nat}

omit [EquivBEq κ] in
theorem nil (finds : ∀ key, find key = none) (counts : count = 0) :
    Tells ([] : List (κ × ν)) find count :=
  ⟨Recency.distinct_nil, finds, counts⟩

theorem put (tells : Tells entries find count) {value : ν}
    (finds : ∀ other, found other = if key == other then some value else find other)
    (counts : counted = if (find key).isSome then count else count + 1) :
    Tells (next entries (.put key value)) found counted where
  distinct := tells.distinct.front_without key value
  find other := by rw [finds, tells.find, next, value?_front (BEq.refl key)]
  count := by rw [counts, tells.find, tells.count, length_put tells.distinct]

theorem remove (tells : Tells entries find count)
    (finds : ∀ other, found other = if key == other then none else find other)
    (counts : counted = if (find key).isSome then count - 1 else count) :
    Tells (next entries (.remove key)) found counted where
  distinct := tells.distinct.sublist List.filter_sublist
  find other := by rw [finds, tells.find, next, value?_remove]
  count := by rw [counts, tells.find, tells.count, length_remove tells.distinct]

end Tells

end Contents

/-! ## Caches in step with a store -/

/-- Whatever is asked of a cache in step with a store, it answers as the store does and stays in
step, if the store still has no more than `capacity` entries. -/
def ServesPlainly {γ : Type} [CacheLike γ κ ν] (capacity : Nat)
    (InStep : γ → List (κ × ν) → Prop) : Prop :=
  ∀ ⦃cache entries⦄ (request : StoreRequest κ ν), InStep cache entries →
    (next entries request).length ≤ capacity →
      ∃ after, CacheLike.serve cache request = .ok (after, answer entries request) ∧
        InStep after (next entries request)

section Histories

variable {γ : Type} [CacheLike γ κ ν] {capacity : Nat} {InStep : γ → List (κ × ν) → Prop}

/-- A store serves every history. -/
theorem exists_answers (requests : List (StoreRequest κ ν)) :
    ∀ entries : List (κ × ν), ∃ final answers,
      serveAll serve entries requests = .ok (final, answers) := by
  induction requests with
  | nil => exact fun entries => ⟨entries, [], rfl⟩
  | cons request rest inductionHypothesis =>
      intro entries
      obtain ⟨final, answers, others⟩ := inductionHypothesis (next entries request)
      exact ⟨final, _, serveAll_cons_of_ok rfl others⟩

theorem ServesPlainly.answers (plainly : ServesPlainly capacity InStep)
    (requests : List (StoreRequest κ ν)) :
    ∀ {cache : γ} {entries final : List (κ × ν)} {answers : List (CacheAnswer ν)},
      InStep cache entries → Fits capacity entries requests →
      serveAll serve entries requests = .ok (final, answers) →
        Answers cache requests answers := by
  induction requests with
  | nil =>
      intro cache entries final answers _ _ stored
      cases stored
      exact ⟨cache, rfl⟩
  | cons request rest inductionHypothesis =>
      intro cache entries final answers inStep fits stored
      -- The store's run falls apart at the first request as the cache's run does.
      obtain ⟨last, others, storedRest⟩ := exists_answers rest (next entries request)
      obtain ⟨after, first, stillInStep⟩ := plainly request inStep fits.first
      rw [serveAll_cons_of_ok rfl storedRest] at stored
      cases stored
      obtain ⟨ending, served⟩ := inductionHypothesis stillInStep fits.rest storedRest
      exact ⟨ending, serveAll_cons_of_ok first served⟩

end Histories

end PlainStore

end BoundedCache
