import BoundedCache.Proofs.Access.Operations
import BoundedCache.Proofs.Counters
import Mathlib.Algebra.Ring.Nat

/-!
# Ledgers

A ledger lists what a cache was asked, what it answered and how large it was before. Whoever keeps
one can tell from it alone what the counters of the cache have to be, except for the evictions,
which are what is missing in the balance of entries that came and entries that went.
-/

namespace BoundedCache

/-! ## Requests and answers -/

namespace AccessRequest

variable {κ ν : Type}

/-- Looks a key up, which counts as a use if it is held. -/
def isLookup : AccessRequest κ ν → Bool
  | .cached (.get _) => true
  | .exchange _ _ => true
  | _ => false

def isPut : AccessRequest κ ν → Bool
  | .cached (.put _ _) => true
  | _ => false

def isRemoval : AccessRequest κ ν → Bool
  | .cached (.remove _) => true
  | _ => false

def isPop : AccessRequest κ ν → Bool
  | .popOldest => true
  | _ => false

def isClear : AccessRequest κ ν → Bool
  | .cached .clear => true
  | _ => false

/-- Only looks, or clears. -/
def isUncounted : AccessRequest κ ν → Bool
  | .cached (.contains _) => true
  | .cached .size => true
  | .cached .clear => true
  | .peek _ => true
  | .oldest => true
  | .list => true
  | _ => false

end AccessRequest

/-- Whether a value or an entry was handed out. -/
def AccessAnswer.isSome {κ ν : Type} : AccessAnswer κ ν → Bool
  | .cached (.value value) => value.isSome
  | .entry stored => stored.isSome
  | _ => false

/-! ## Transactions -/

/-- A request with its answer and the size of the cache before it. -/
structure Transaction (κ ν : Type) where
  request : AccessRequest κ ν
  answer : AccessAnswer κ ν
  sizeBefore : Nat

namespace Transaction

variable {κ ν : Type}

def isLookup (transaction : Transaction κ ν) : Bool :=
  transaction.request.isLookup

def isHit (transaction : Transaction κ ν) : Bool :=
  transaction.request.isLookup && transaction.answer.isSome

def isUpdate (transaction : Transaction κ ν) : Bool :=
  transaction.request.isPut && transaction.answer.isSome

def isInsertion (transaction : Transaction κ ν) : Bool :=
  transaction.request.isPut && !transaction.answer.isSome

def isRemoval (transaction : Transaction κ ν) : Bool :=
  transaction.request.isRemoval && transaction.answer.isSome

/-- The oldest entry was handed out and is gone. -/
def isPop (transaction : Transaction κ ν) : Bool :=
  transaction.request.isPop && transaction.answer.isSome

/-- The number of entries that were dropped by clearing the cache. -/
def cleared (transaction : Transaction κ ν) : Nat :=
  if transaction.request.isClear then transaction.sizeBefore else 0

end Transaction

/-! ## Accounts -/

/-- What a ledger says about the counters and the size of a cache before and after it. -/
structure Accounts {κ ν : Type} (ledger : List (Transaction κ ν)) (before after : Counters)
    (sizeBefore sizeAfter : Nat) : Prop where
  requests : after.requests = before.requests + ledger.countP Transaction.isLookup
  hits : after.hits = before.hits + ledger.countP Transaction.isHit
  updates : after.updates = before.updates + ledger.countP Transaction.isUpdate
  insertions : after.insertions = before.insertions + ledger.countP Transaction.isInsertion
  removals : after.removals = before.removals + ledger.countP Transaction.isRemoval
  balance :
    after.insertions + (before.removals + before.evictions + sizeBefore) =
      before.insertions + (after.removals + after.evictions + sizeAfter) +
        (ledger.map Transaction.cleared).sum + ledger.countP Transaction.isPop

namespace Accounts

variable {κ ν : Type} {ledger others : List (Transaction κ ν)} {before middle after : Counters}
  {sizeBefore sizeMiddle sizeAfter : Nat}

theorem nil (counters : Counters) (size : Nat) :
    Accounts ([] : List (Transaction κ ν)) counters counters size size := by
  constructor <;> simp [Nat.add_assoc]

/-- The account of a longer ledger is that of its parts, one after the other. -/
theorem append (first : Accounts ledger before middle sizeBefore sizeMiddle)
    (second : Accounts others middle after sizeMiddle sizeAfter) :
    Accounts (ledger ++ others) before after sizeBefore sizeAfter where
  requests := by rw [second.requests, first.requests, List.countP_append, Nat.add_assoc]
  hits := by rw [second.hits, first.hits, List.countP_append, Nat.add_assoc]
  updates := by rw [second.updates, first.updates, List.countP_append, Nat.add_assoc]
  insertions := by rw [second.insertions, first.insertions, List.countP_append, Nat.add_assoc]
  removals := by rw [second.removals, first.removals, List.countP_append, Nat.add_assoc]
  balance := by
    have firstBalance := first.balance
    have secondBalance := second.balance
    rw [List.map_append, List.sum_append, List.countP_append]
    omega

end Accounts

/-- What a transaction adds to the counters, apart from evictions. -/
def Transaction.counted {κ ν : Type} (transaction : Transaction κ ν) : Counters where
  requests := if transaction.isLookup then 1 else 0
  hits := if transaction.isHit then 1 else 0
  updates := if transaction.isUpdate then 1 else 0
  insertions := if transaction.isInsertion then 1 else 0
  removals := if transaction.isRemoval then 1 else 0

/-- The entries that came with a transaction are those that went and those that are left. -/
def Transaction.Balances {κ ν : Type} (transaction : Transaction κ ν) (sizeAfter evicted : Nat) :
    Prop :=
  transaction.sizeBefore + transaction.counted.insertions =
    sizeAfter + transaction.counted.removals + evicted + transaction.cleared +
      if transaction.isPop then 1 else 0

section Counted

variable {κ ν : Type} (key : κ) (value : ν) (answer : Option ν) (size : Nat)

theorem Transaction.counted_get :
    (⟨.cached (.get key), .cached (.value answer), size⟩ : Transaction κ ν).counted =
      .ofLookup answer := by
  cases answer <;> rfl

theorem Transaction.counted_exchange :
    (⟨.exchange key value, .cached (.value answer), size⟩ : Transaction κ ν).counted =
      .ofLookup answer := by
  cases answer <;> rfl

theorem Transaction.counted_put :
    (⟨.cached (.put key value), .cached (.value answer), size⟩ : Transaction κ ν).counted =
      .ofPut answer := by
  cases answer <;> rfl

theorem Transaction.counted_remove :
    (⟨.cached (.remove key), .cached (.value answer), size⟩ : Transaction κ ν).counted =
      .ofRemoval answer := by
  cases answer <;> rfl

variable (sizeAfter evicted : Nat)

theorem Transaction.balances_get :
    (⟨.cached (.get key), .cached (.value answer), size⟩ : Transaction κ ν).Balances sizeAfter
      evicted ↔ size = sizeAfter + evicted :=
  Iff.rfl

theorem Transaction.balances_exchange :
    (⟨.exchange key value, .cached (.value answer), size⟩ : Transaction κ ν).Balances sizeAfter
      evicted ↔ size = sizeAfter + evicted :=
  Iff.rfl

theorem Transaction.balances_put :
    (⟨.cached (.put key value), .cached (.value answer), size⟩ : Transaction κ ν).Balances
      sizeAfter evicted ↔
      size + (if answer.isSome then 0 else 1) = sizeAfter + evicted := by
  rw [Balances, counted_put]
  exact Iff.rfl

theorem Transaction.balances_remove :
    (⟨.cached (.remove key), .cached (.value answer), size⟩ : Transaction κ ν).Balances
      sizeAfter evicted ↔
      size = sizeAfter + (if answer.isSome then 1 else 0) + evicted := by
  rw [Balances, counted_remove]
  exact Iff.rfl

theorem Transaction.balances_popOldest (entry : Option (κ × ν)) :
    (⟨.popOldest, .entry entry, size⟩ : Transaction κ ν).Balances sizeAfter evicted ↔
      size = sizeAfter + evicted + if entry.isSome then 1 else 0 :=
  Iff.rfl

theorem Transaction.balances_clear :
    (⟨.cached .clear, .cached .cleared, size⟩ : Transaction κ ν).Balances 0 0 := by
  simp [Balances, cleared, counted, isInsertion, isRemoval, isPop, AccessRequest.isPut,
    AccessRequest.isRemoval, AccessRequest.isClear, AccessRequest.isPop]

end Counted

/-- A single transaction is accounted for by what it adds to the counters and by the entries that
came and went with it. -/
theorem Accounts.of_counted {κ ν : Type} {transaction : Transaction κ ν}
    {before after : Counters} {sizeAfter : Nat} (evicted : Nat)
    (counts : after = before + transaction.counted + { evictions := evicted })
    (balance : transaction.Balances sizeAfter evicted) :
    Accounts [transaction] before after transaction.sizeBefore sizeAfter := by
  subst counts
  rw [Transaction.Balances] at balance
  constructor
  case balance =>
    simp only [Counters.add_insertions, Counters.add_removals, Counters.add_evictions,
      List.map_cons, List.map_nil, List.sum_cons, List.sum_nil, List.countP_singleton]
    have noEvictions : transaction.counted.evictions = 0 := rfl
    omega
  all_goals simp [Transaction.counted, List.countP_singleton]

/-- If no more hits than lookups were counted before, then none are afterwards. -/
theorem Accounts.hits_le {κ ν : Type} {ledger : List (Transaction κ ν)} {before after : Counters}
    {sizeBefore sizeAfter : Nat} (accounts : Accounts ledger before after sizeBefore sizeAfter)
    (fewer : before.hits ≤ before.requests) : after.hits ≤ after.requests := by
  have counted : ledger.countP Transaction.isHit ≤ ledger.countP Transaction.isLookup :=
    List.countP_mono_left fun _ _ isHit => (Bool.and_eq_true_iff.1 isHit).1
  rw [accounts.hits, accounts.requests]
  omega

/-- What the ledger of a cache that began without entries tells about its counters and its size:
each counter is the number of transactions of its kind, and all entries that came were removed,
evicted, dropped by clearing or popped, or are still there. -/
structure Balanced {κ ν : Type} (ledger : List (Transaction κ ν)) (counters : Counters)
    (size : Nat) : Prop where
  requests : counters.requests = ledger.countP Transaction.isLookup
  hits : counters.hits = ledger.countP Transaction.isHit
  updates : counters.updates = ledger.countP Transaction.isUpdate
  insertions : counters.insertions = ledger.countP Transaction.isInsertion
  removals : counters.removals = ledger.countP Transaction.isRemoval
  balance :
    counters.insertions = counters.removals + counters.evictions + size +
      (ledger.map Transaction.cleared).sum + ledger.countP Transaction.isPop

theorem Accounts.balanced {κ ν : Type} {ledger : List (Transaction κ ν)} {counters : Counters}
    {size : Nat} (accounts : Accounts ledger 0 counters 0 size) :
    Balanced ledger counters size where
  requests := accounts.requests.trans (Nat.zero_add _)
  hits := accounts.hits.trans (Nat.zero_add _)
  updates := accounts.updates.trans (Nat.zero_add _)
  insertions := accounts.insertions.trans (Nat.zero_add _)
  removals := accounts.removals.trans (Nat.zero_add _)
  balance := by simpa [Counters.zero_eq] using accounts.balance

/-! ## Ledgers of a system -/

section Systems

variable {κ ν γ ρ β C : Type}

/-- How a system keeps its counters: what it is asked and answers, its size, all its counters, and
those among them that every cache has. -/
structure Bookkeeping (κ ν γ ρ β C : Type) where
  serve : γ → ρ → Checked (γ × β)
  asked : ρ → AccessRequest κ ν
  told : β → AccessAnswer κ ν
  size : γ → Nat
  counters : γ → C
  core : C → Counters

namespace Bookkeeping

variable (books : Bookkeeping κ ν γ ρ β C)

/-- Serves a request and writes the transaction down. -/
def record (state : γ) (request : ρ) : Checked (γ × Transaction κ ν) := do
  let (after, answer) ← books.serve state request
  return (after, ⟨books.asked request, books.told answer, books.size state⟩)

/-- A request is served and accounted for, and keeps what was kept. Requests that only look, and
clearing, change no counter. -/
structure Accounted (Kept : γ → Prop) (state : γ) (request : ρ) (after : γ) (answer : β) :
    Prop where
  served : books.serve state request = .ok (after, answer)
  kept : Kept after
  accounts : Accounts [⟨books.asked request, books.told answer, books.size state⟩]
    (books.core (books.counters state)) (books.core (books.counters after)) (books.size state)
    (books.size after)
  uncounted : (books.asked request).isUncounted → books.counters after = books.counters state

/-- What holds of single requests holds of histories: the ledger of a history accounts for the
counters and the size afterwards. -/
theorem exists_ledger {Kept : γ → Prop}
    (step : ∀ {state} (request : ρ), Kept state →
      ∃ after answer, books.Accounted Kept state request after answer)
    (requests : List ρ) :
    ∀ {state : γ}, Kept state →
      ∃ final ledger, serveAll books.record state requests = .ok (final, ledger) ∧ Kept final ∧
        ledger.map Transaction.request = requests.map books.asked ∧
        Accounts ledger (books.core (books.counters state)) (books.core (books.counters final))
          (books.size state) (books.size final) := by
  induction requests with
  | nil =>
      intro state kept
      exact ⟨state, [], rfl, kept, rfl, Accounts.nil _ _⟩
  | cons request rest inductionHypothesis =>
      intro state kept
      obtain ⟨middle, answer, accounted⟩ := step request kept
      obtain ⟨final, ledger, others, keptFinal, sameRequests, accounts⟩ :=
        inductionHypothesis accounted.kept
      have first : books.record state request =
          .ok (middle, ⟨books.asked request, books.told answer, books.size state⟩) := by
        rw [record, accounted.served]
        rfl
      refine ⟨final, _, serveAll_cons_of_ok first others, keptFinal, ?_, ?_⟩
      · rw [List.map_cons, List.map_cons, sameRequests]
      · exact accounted.accounts.append accounts

/-- Every history of a fresh state is served. Its ledger names what was asked, and tells the
counters and the size afterwards; and requests that only look, and clearing, change no counter
then. -/
def Exact (fresh : γ) : Prop :=
  ∀ requests : List ρ, ∃ state ledger,
    serveAll books.record fresh requests = .ok (state, ledger) ∧
    ledger.map Transaction.request = requests.map books.asked ∧
    Balanced ledger (books.core (books.counters state)) (books.size state) ∧
    ∀ request, (books.asked request).isUncounted → ∃ after answer,
      books.serve state request = .ok (after, answer) ∧
      books.counters after = books.counters state

theorem exact_of_accounted {Kept : γ → Prop}
    (step : ∀ {state} (request : ρ), Kept state →
      ∃ after answer, books.Accounted Kept state request after answer)
    {fresh : γ} (kept : Kept fresh) (uncounted : books.core (books.counters fresh) = 0)
    (empty : books.size fresh = 0) : books.Exact fresh := by
  intro requests
  obtain ⟨state, ledger, run, keptState, sameRequests, accounts⟩ :=
    books.exists_ledger step requests kept
  rw [uncounted, empty] at accounts
  refine ⟨state, ledger, run, sameRequests, accounts.balanced, fun request looks => ?_⟩
  obtain ⟨after, answer, accounted⟩ := step request keptState
  exact ⟨after, answer, accounted.served, accounted.uncounted looks⟩

/-! ### Histories without a fault -/

/-- Some history leads to the state. -/
def Reaches (fresh state : γ) : Prop :=
  ∃ requests answers, serveAll books.serve fresh requests = .ok (state, answers)

/-- Nothing goes wrong from a fresh state on: every history is served without a fault, all states
passed through are safe, and the misses can be told from the counters after every history. -/
structure NeverFails (fresh : γ) (Passes Safe : γ → Prop) : Prop where
  serves : ∀ requests, ∃ state answers,
    serveAll books.serve fresh requests = .ok (state, answers)
  safe : ∀ state, Passes state → Safe state
  misses : ∀ state, books.Reaches fresh state →
    (books.core (books.counters state)).misses + (books.core (books.counters state)).hits =
      (books.core (books.counters state)).requests

variable {Kept : γ → Prop}
  (step : ∀ {state} (request : ρ), Kept state →
    ∃ after answer, books.Accounted Kept state request after answer)

include step in
/-- What every step keeps is kept by histories, and hits are no more than requests. -/
theorem exists_kept {fresh : γ} (kept : Kept fresh)
    (uncounted : books.core (books.counters fresh) = 0) (requests : List ρ) :
    ∃ state answers, serveAll books.serve fresh requests = .ok (state, answers) ∧ Kept state ∧
      (books.core (books.counters state)).hits ≤ (books.core (books.counters state)).requests := by
  have keeps : ∀ {state} (request : ρ), Kept state ∧
      (books.core (books.counters state)).hits ≤ (books.core (books.counters state)).requests →
      ∃ after answer, books.serve state request = .ok (after, answer) ∧ Kept after ∧
        (books.core (books.counters after)).hits ≤
          (books.core (books.counters after)).requests := by
    intro state request ⟨keptState, fewer⟩
    obtain ⟨after, answer, accounted⟩ := step request keptState
    exact ⟨after, answer, accounted.served, accounted.kept, accounted.accounts.hits_le fewer⟩
  refine serveAll_keeps keeps requests ⟨kept, ?_⟩
  rw [uncounted]
  exact Nat.le_refl 0

include step in
theorem kept_of_reaches {fresh state : γ} (kept : Kept fresh)
    (uncounted : books.core (books.counters fresh) = 0) (reaches : books.Reaches fresh state) :
    Kept state ∧
      (books.core (books.counters state)).hits ≤ (books.core (books.counters state)).requests := by
  obtain ⟨requests, answers, served⟩ := reaches
  obtain ⟨same, _, run, keptState⟩ := books.exists_kept step kept uncounted requests
  rw [served] at run
  cases run
  exact keptState

include step in
theorem neverFails_of_accounted {fresh : γ} (kept : Kept fresh)
    (uncounted : books.core (books.counters fresh) = 0) {Passes Safe : γ → Prop}
    (safe : ∀ state, Passes state → Safe state) : books.NeverFails fresh Passes Safe where
  serves requests := by
    obtain ⟨state, answers, served, _⟩ := books.exists_kept step kept uncounted requests
    exact ⟨state, answers, served⟩
  safe := safe
  misses state reaches :=
    Nat.sub_add_cancel (books.kept_of_reaches step kept uncounted reaches).2

end Bookkeeping

end Systems

end BoundedCache
