import BoundedCache.Proofs.Clock.Sweep

/-!
# Requests to a clock table

A table serves requests: lookups, puts and removals under any hash code, sweeps and clears. A
table that shows a dial serves every history of requests, and answers it as the dial does. A
table that was built and has served some requests therefore shows a valid dial, whose entries can
be read off the ring.
-/

namespace BoundedCache.Clock

variable {κ ν : Type}

/-! ## Requests -/

/-- What can be asked of a table. -/
inductive Request (κ ν : Type) where
  | get (hash : UInt32) (key : κ)
  | put (hash : UInt32) (key : κ) (value : ν)
  | remove (hash : UInt32) (key : κ)
  | sweep
  | clear

/-- What a table answers. -/
inductive Reply (κ ν : Type) where
  /-- The value found, replaced or removed. -/
  | value (value : Option ν)
  /-- The entry that a sweep evicted. -/
  | victim (victim : Option (Entry κ ν))
  | cleared

/-- The entry that was evicted, if any was. -/
def Reply.evicted : Reply κ ν → Option (Entry κ ν)
  | .victim entry => entry
  | _ => none

@[simp] theorem Reply.evicted_victim (victim : Option (Entry κ ν)) :
    (Reply.victim victim).evicted = victim := rfl

variable [BEq κ]

def Table.serve (table : Table κ ν) : Request κ ν → Checked (Table κ ν × Reply κ ν)
  | .get hash key => do
      let (table, value) ← table.get hash key
      return (table, .value value)
  | .put hash key value => do
      let (table, old) ← table.put hash key value
      return (table, .value old)
  | .remove hash key => do
      let (table, value) ← table.remove hash key
      return (table, .value value)
  | .sweep => do
      let (table, victim) ← table.sweep
      return (table, .victim victim)
  | .clear => return (table.clear, .cleared)

/-- What a dial answers, and what becomes of it. -/
def Dial.serve (dial : Dial κ ν) : Request κ ν → Dial κ ν × Reply κ ν
  | .get hash key => let (dial, value) := dial.get hash key; (dial, .value value)
  | .put hash key value => let (dial, old) := dial.put hash key value; (dial, .value old)
  | .remove hash key => let (dial, value) := dial.remove hash key; (dial, .value value)
  | .sweep => let (dial, victim) := dial.sweep; (dial, .victim victim)
  | .clear => (dial.clear, .cleared)

/-- The answers of a dial to a history, and what becomes of it. -/
def Dial.run (dial : Dial κ ν) : List (Request κ ν) → Dial κ ν × List (Reply κ ν)
  | [] => (dial, [])
  | request :: rest =>
      let (dial, reply) := dial.serve request
      let (dial, replies) := dial.run rest
      (dial, reply :: replies)

/-! ## Validity -/

theorem Dial.valid_serve [PartialEquivBEq κ] {dial : Dial κ ν} (valid : Valid dial.entries)
    (request : Request κ ν) : Valid (dial.serve request).1.entries := by
  cases request with
  | get hash key => exact valid_get valid
  | put hash key value => exact valid_put valid
  | remove hash key => exact valid_remove valid
  | sweep => exact valid_sweep valid
  | clear => exact valid_nil

theorem Dial.valid_run [PartialEquivBEq κ] (requests : List (Request κ ν)) {dial : Dial κ ν}
    (valid : Valid dial.entries) : Valid (dial.run requests).1.entries := by
  induction requests generalizing dial with
  | nil => exact valid
  | cons request rest inductionHypothesis =>
      exact inductionHypothesis (valid_serve valid request)

/-! ## Serving -/

section Serving

variable {table : Table κ ν} {dial : Dial κ ν}

theorem Realizes.map {β γ : Type} {buckets : Nat} {step : Checked (Table κ ν × β)}
    {outcome : Dial κ ν × β} (realizes : Realizes buckets step outcome) (name : β → γ) :
    Realizes buckets (do let (table, answer) ← step; return (table, name answer))
      (outcome.1, name outcome.2) := by
  obtain ⟨table, succeeds, shows, sameBuckets⟩ := realizes
  exact ⟨table, by rw [succeeds]; rfl, shows, sameBuckets⟩

variable [PartialEquivBEq κ]

theorem Table.Shows.serve (shows : table.Shows dial) (request : Request κ ν) :
    Realizes table.buckets (table.serve request) (dial.serve request) := by
  cases request with
  | get hash key => exact (shows.get hash key).map Reply.value
  | put hash key value => exact (shows.put hash key value).map Reply.value
  | remove hash key => exact (shows.remove hash key).map Reply.value
  | sweep => exact shows.sweep.map Reply.victim
  | clear => exact ⟨table.clear, rfl, shows.clear, rfl⟩

/-- A table serves every history as its dial does. -/
theorem Table.Shows.run (requests : List (Request κ ν)) {table : Table κ ν} {dial : Dial κ ν}
    (shows : table.Shows dial) :
    ∃ final, serveAll Table.serve table requests = .ok (final, (dial.run requests).2) ∧
      final.Shows (dial.run requests).1 := by
  induction requests generalizing table dial with
  | nil => exact ⟨table, rfl, shows⟩
  | cons request rest inductionHypothesis =>
      obtain ⟨middle, step, showsMiddle, _⟩ := shows.serve request
      obtain ⟨final, others, showsFinal⟩ := inductionHypothesis showsMiddle
      exact ⟨final, serveAll_cons_of_ok step others, showsFinal⟩

/-- A table that has served requests since it was built shows a valid dial. -/
theorem Table.shows_of_reached {buckets : Nat} {fresh reached : Table κ ν}
    {past : List (Request κ ν)} {answers : List (Reply κ ν)}
    (built : Table.ofBuckets buckets = .ok fresh)
    (served : serveAll Table.serve fresh past = .ok (reached, answers)) :
    ∃ dial : Dial κ ν, reached.Shows dial ∧ Valid dial.entries := by
  obtain ⟨final, run, shows⟩ := (Table.shows_of_ofBuckets built).run past
  rw [served] at run
  cases run
  exact ⟨_, shows, Dial.valid_run past valid_nil⟩

end Serving

/-! ## The entries on the ring -/

/-- The entries from a slot on, as the hand meets them, read in at most `fuel` steps. -/
def entriesFrom (hand : Nat) (nodes : Slab (Node κ ν)) :
    Nat → Nat → Checked (List (Entry κ ν))
  | 0, _ => .ok []
  | fuel + 1, index =>
      if index = hand then .ok []
      else do
        let node ← nodes.fetch index
        let entries ← entriesFrom hand nodes fuel node.ring.prev
        return node.entry.toList ++ entries

/-- The entries in the order in which the hand meets them: the ring is followed backwards. -/
def Table.entries (table : Table κ ν) : Checked (List (Entry κ ν)) := do
  let hand ← table.nodes.fetch table.hand
  entriesFrom table.hand table.nodes table.nodes.slots.size hand.ring.prev

theorem entriesFrom_eq {buckets : Nat} {nodes : Slab (Node κ ν)} {chains : Nat → List Nat}
    (fuel : Nat) :
    ∀ {passed ahead : List (Cell κ ν)}, Layout buckets nodes (passed ++ ahead) chains →
      ahead.length ≤ fuel →
        entriesFrom buckets nodes fuel ((ahead.map Prod.fst).headD buckets) =
          .ok (ahead.map Prod.snd) := by
  induction fuel with
  | zero =>
      intro passed ahead _ enough
      rw [List.eq_nil_of_length_eq_zero (Nat.le_zero.1 enough)]
      rfl
  | succ fuel inductionHypothesis =>
      intro passed ahead layout enough
      cases ahead with
      | nil => simp [entriesFrom]
      | cons cell behind =>
          obtain ⟨index, entry⟩ := cell
          have member : (index, entry) ∈ passed ++ (index, entry) :: behind := by simp
          have above := layout.above member
          have notHand : index ≠ buckets := by omega
          obtain ⟨node, holds, hasEntry⟩ := layout.node_of_mem member
          have prev := layout.prev_eq holds
          rw [← List.singleton_append, ← List.append_assoc] at layout
          have others := inductionHypothesis layout (Nat.le_of_succ_le_succ enough)
          rw [← prev] at others
          simp [entriesFrom, notHand, Slab.fetch_eq_ok_iff.2 holds, others, hasEntry]

/-- The entries on the ring of a table are those of its dial. -/
theorem Table.Shows.entries_eq {table : Table κ ν} {dial : Dial κ ν}
    (shows : table.Shows dial) : table.entries = .ok dial.entries := by
  obtain ⟨cells, chains, layout, entries⟩ := shows.laidOut
  obtain ⟨hand, handHolds⟩ := Option.isSome_iff_exists.1 layout.hand_isSome
  have enough : cells.length ≤ table.nodes.slots.size := by
    rw [← List.length_map Prod.fst]
    refine Slab.length_le_size layout.slots_nodup ?_
    intro index member
    obtain ⟨cell, inCells, rfl⟩ := List.mem_map.1 member
    obtain ⟨node, holds, _⟩ := layout.node_of_mem inCells
    exact Slab.lt_size_of_get? holds
  have start : Layout table.buckets table.nodes ([] ++ cells) chains := layout
  rw [Table.entries, Table.hand, Slab.fetch_eq_ok_iff.2 handHolds, ok_bind,
    layout.hand_prev handHolds, entriesFrom_eq _ start enough, entries]

end BoundedCache.Clock
