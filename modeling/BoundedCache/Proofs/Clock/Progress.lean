import BoundedCache.Proofs.Clock.Draining
import BoundedCache.Proofs.Clock.Due
import Mathlib.Data.Nat.Find

/-!
# Sweeps make progress

A sweep evicts an entry or consumes visits, so a table that is only swept becomes empty. It takes
three sweeps at most to consume a visit of every entry, so the entry with the fewest visits bounds
how long the first eviction can take. What was evicted and what remains together are always the
entries that there were.
-/

namespace BoundedCache.Clock

variable {κ ν : Type} [BEq κ]

/-! ## The first eviction -/

/-- As many sweeps as some entry needs evict an entry. -/
theorem Dial.evicts_of_due [PartialEquivBEq κ] (count : Nat) {dial : Dial κ ν}
    (valid : Valid dial.entries) (due : dial.Due count) :
    ∃ reply ∈ (dial.run (List.replicate count .sweep)).2, reply.evicted.isSome := by
  induction count generalizing dial with
  | zero => exact absurd due dial.not_due_zero
  | succ count inductionHypothesis =>
      rw [Dial.run_sweeps_succ]
      cases found : dial.sweep.2 with
      | some victim => exact ⟨.victim (some victim), List.mem_cons_self, rfl⟩
      | none =>
          obtain ⟨reply, member, evicted⟩ :=
            inductionHypothesis (valid_sweep valid) (due_sweep valid due found)
          exact ⟨reply, List.mem_cons_of_mem _ member, evicted⟩

/-! ## What is evicted and what remains -/

omit [BEq κ] in
/-- A sweep loses no entry and hands none out twice. -/
theorem Dial.perm_sweep (dial : Dial κ ν) :
    (dial.sweep.2.toList ++ dial.sweep.1.entries.map Entry.spent).Perm
      (dial.entries.map Entry.spent) := by
  obtain ⟨front, ahead, found, split, turned, evicted, _, light⟩ := dial.sweep_split
  have spent : dial.sweep.2.toList = found.toList.map Entry.spent := by
    rw [evicted]
    cases found with
    | none => rfl
    | some entry => exact congrArg (fun entry => [entry]) (Entry.age_eq_spent (light entry rfl))
  have aged : (front.map Entry.age).map Entry.spent = front.map Entry.spent := by
    rw [List.map_map]
    rfl
  rw [spent, turned, split, List.map_append, List.map_append, List.map_append, aged]
  rw [← List.append_assoc, List.append_assoc (front.map Entry.spent)]
  exact List.perm_append_comm

/-- However often a dial is swept, what it evicted and what remains are its entries. -/
theorem Dial.perm_run_sweeps (count : Nat) (dial : Dial κ ν) :
    let (final, replies) := dial.run (List.replicate count .sweep)
    (replies.filterMap Reply.evicted ++ final.entries.map Entry.spent).Perm
      (dial.entries.map Entry.spent) := by
  induction count generalizing dial with
  | zero => exact .refl _
  | succ count inductionHypothesis =>
      have later := inductionHypothesis dial.sweep.1
      have first : ((dial.run (List.replicate (count + 1) .sweep)).2).filterMap Reply.evicted =
          dial.sweep.2.toList ++ ((dial.sweep.1.run (List.replicate count .sweep)).2).filterMap
            Reply.evicted := by
        rw [Dial.run_sweeps_succ]
        cases dial.sweep.2 with
        | none => exact List.filterMap_cons_none rfl
        | some victim => exact List.filterMap_cons_some rfl
      dsimp only
      rw [first, List.append_assoc]
      exact (later.append_left _).trans dial.perm_sweep

/-! ## Tables -/

/-- What sweeps alone do to a table with these entries. -/
structure Table.MakesProgress (table : Table κ ν) (entries : List (Entry κ ν)) : Prop where
  /-- Three sweeps for each of the fewest visits that an entry has evict some entry. -/
  evicts : ∀ fewest, (entries.map Entry.visits).min? = some fewest → ∃ final replies,
    serveAll Table.serve table (List.replicate (3 * fewest) .sweep) = .ok (final, replies) ∧
    ∃ reply ∈ replies, reply.evicted.isSome
  /-- A sweep that evicts none consumes visits. -/
  consumes : entries ≠ [] → ∀ next, table.sweep = .ok (next, none) →
    ∃ left, next.entries = .ok left ∧ weight left < weight entries
  /-- Sweeping until no entry is left comes to an end and hands out every entry once. -/
  drains : ∃ count ≤ weight entries, ∃ final replies,
    serveAll Table.serve table (List.replicate count .sweep) = .ok (final, replies) ∧
    final.size = 0 ∧ (replies.filterMap Reply.evicted).Perm (entries.map Entry.spent) ∧
    ∀ fewer < count, ∃ middle answers,
      serveAll Table.serve table (List.replicate fewer .sweep) = .ok (middle, answers) ∧
      middle.size ≠ 0

theorem Table.Shows.makesProgress [EquivBEq κ] {table : Table κ ν} {dial : Dial κ ν}
    (shows : table.Shows dial) (valid : Valid dial.entries) :
    table.MakesProgress dial.entries := by
  refine
    { evicts := ?evicts
      consumes := ?consumes
      drains := ?drains }
  case evicts =>
      intro fewest isFewest
      obtain ⟨entry, member, rfl⟩ := List.mem_map.1 (List.min?_mem isFewest)
      have due := Dial.due_of_mem member (valid.visited entry member)
      obtain ⟨final, run, _⟩ := shows.run (List.replicate (3 * entry.visits) .sweep)
      exact ⟨final, _, run, Dial.evicts_of_due _ valid due⟩
  case consumes =>
      intro someEntries next swept
      obtain ⟨same, step, showsNext, _⟩ := shows.sweep
      obtain ⟨rfl, _⟩ := Prod.mk.inj (Except.ok.inj (swept.symm.trans step))
      exact ⟨_, showsNext.entries_eq, Dial.weight_sweep valid someEntries⟩
  case drains =>
      let empties := fun count => (dial.run (List.replicate count .sweep)).1.entries = []
      have atWeight : empties (weight dial.entries) := by
        obtain ⟨_, _, _, _, empty⟩ := Dial.drain (weight dial.entries) valid (Nat.le_refl _)
        exact empty
      have sometime : ∃ count, empties count := ⟨_, atWeight⟩
      classical
      obtain ⟨final, run, showsFinal⟩ := shows.run (List.replicate (Nat.find sometime) .sweep)
      have none : (dial.run (List.replicate (Nat.find sometime) .sweep)).1.entries = [] :=
        Nat.find_spec sometime
      refine ⟨Nat.find sometime, Nat.find_min' sometime atWeight, final, _, run, ?_, ?_, ?_⟩
      · rw [showsFinal.size, none, List.length_nil]
      · have all := Dial.perm_run_sweeps (Nat.find sometime) dial
        dsimp only at all
        rwa [none, List.map_nil, List.append_nil] at all
      · intro fewer early
        obtain ⟨middle, middleRun, showsMiddle⟩ := shows.run (List.replicate fewer .sweep)
        refine ⟨middle, _, middleRun, ?_⟩
        rw [showsMiddle.size]
        exact fun noLength => Nat.find_min sometime early (List.length_eq_zero_iff.1 noLength)

/-- A table that is in use makes progress when it is swept, whatever requests came before. -/
theorem Table.sweeps_make_progress [EquivBEq κ] {buckets : Nat} {fresh table : Table κ ν}
    {past : List (Request κ ν)} {answers : List (Reply κ ν)}
    (built : Table.ofBuckets buckets = .ok fresh)
    (served : serveAll Table.serve fresh past = .ok (table, answers)) :
    ∃ entries, table.entries = .ok entries ∧ table.MakesProgress entries := by
  obtain ⟨dial, shows, valid⟩ := Table.shows_of_reached built served
  exact ⟨dial.entries, shows.entries_eq, shows.makesProgress valid⟩

/-- Three keys, all visited twice, of which the hand has passed one. -/
theorem Table.sweeps_make_progress_three_keys :
    ∃ (table : Table Nat Nat) (answers : List (Reply Nat Nat)),
      serveAll Table.serve (Table.empty 2)
        [.put 0 1 10, .put 0 2 20, .put 2 3 30, .get 0 1, .sweep, .get 2 3] =
          .ok (table, answers) ∧
      ∃ entries, table.entries = .ok entries ∧ table.MakesProgress entries := by
  have built : Table.ofBuckets 2 = .ok (Table.empty 2 : Table Nat Nat) := rfl
  have shows : (Table.empty 2 : Table Nat Nat).Shows .empty := Table.shows_empty (by decide)
  obtain ⟨table, served, _⟩ :=
    shows.run [.put 0 1 10, .put 0 2 20, .put 2 3 30, .get 0 1, .sweep, .get 2 3]
  exact ⟨table, _, served, Table.sweeps_make_progress built served⟩

end BoundedCache.Clock
