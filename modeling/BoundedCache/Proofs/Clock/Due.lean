import BoundedCache.Proofs.Clock.Dial

/-!
# When an entry is due

Three sweeps without a victim take the hand past every entry, since the budget is more than a
third of the entries. So three sweeps consume a visit of each entry, and a dial with an entry of
few visits soon gives up some entry.
-/

namespace BoundedCache.Clock

variable {κ ν : Type}

/-- A stroke without a victim passes as many entries as its budget allows. -/
theorem strike_of_none {budget : Nat} {entries : List (Entry κ ν)}
    (noVictim : (strike budget entries).victim = none) :
    (strike budget entries).turned =
      entries.drop budget ++ (entries.take budget).map Entry.age := by
  have parts : (strike budget entries).passed = (entries.take budget).map Entry.age ∧
      (strike budget entries).ahead = entries.drop budget := by
    induction budget generalizing entries with
    | zero => simp [strike]
    | succ budget inductionHypothesis =>
        cases entries with
        | nil => simp [strike]
        | cons entry ahead =>
            simp only [strike] at noVictim ⊢
            split at noVictim
            · contradiction
            · rename_i heavy
              obtain ⟨passes, leaves⟩ := inductionHypothesis noVictim
              simp [heavy, passes, leaves]
  rw [Stroke.turned, parts.1, parts.2]

namespace Dial

/-- Some entry loses its last visit within this many sweeps, unless another one is evicted
before. -/
def Due (dial : Dial κ ν) (count : Nat) : Prop :=
  ∃ before entry after, dial.entries = before ++ entry :: after ∧
    3 * (entry.visits - 1) + before.length / dial.budget < count

theorem budget_pos (dial : Dial κ ν) : 0 < dial.budget :=
  Nat.succ_pos _

/-- Every position is reached in the third sweep at the latest. -/
theorem position_div_budget {dial : Dial κ ν} {position : Nat}
    (inBounds : position < dial.entries.length) : position / dial.budget < 3 := by
  refine Nat.div_lt_of_lt_mul ?_
  rw [budget]
  omega

theorem not_due_zero (dial : Dial κ ν) : ¬ dial.Due 0 := by
  intro due
  obtain ⟨_, _, _, _, impossible⟩ := due
  exact Nat.not_lt_zero _ impossible

theorem Due.mono {dial : Dial κ ν} {few many : Nat} (due : dial.Due few) (fewer : few ≤ many) :
    dial.Due many := by
  obtain ⟨before, entry, after, split, soon⟩ := due
  exact ⟨before, entry, after, split, Nat.lt_of_lt_of_le soon fewer⟩

theorem due_of_mem {dial : Dial κ ν} {entry : Entry κ ν} (member : entry ∈ dial.entries)
    (visited : 0 < entry.visits) : dial.Due (3 * entry.visits) := by
  obtain ⟨before, after, split⟩ := List.append_of_mem member
  have position : before.length / dial.budget < 3 := position_div_budget (by simp [split])
  exact ⟨before, entry, after, split, by omega⟩

/-- A sweep without a victim brings the eviction of some entry nearer. -/
theorem due_sweep [BEq κ] [PartialEquivBEq κ] {dial : Dial κ ν} {count : Nat}
    (valid : Valid dial.entries) (due : dial.Due (count + 1)) (noVictim : dial.sweep.2 = none) :
    dial.sweep.1.Due count := by
  obtain ⟨before, entry, after, split, soon⟩ := due
  have someEntries : ¬ dial.entries.isEmpty := by simp [split]
  have validAfter := valid_sweep valid
  have lengths := dial.length_sweep
  rw [noVictim, Option.toList_none, List.length_nil, Nat.add_zero] at lengths
  have sameBudget : dial.sweep.1.budget = dial.budget := by rw [budget, budget, lengths]
  have turned : dial.sweep.1.entries =
      dial.entries.drop dial.budget ++ (dial.entries.take dial.budget).map Entry.age := by
    rw [sweep, if_neg someEntries] at noVictim ⊢
    exact strike_of_none noVictim
  have positive := dial.budget_pos
  rcases Nat.lt_or_ge before.length dial.budget with reached | notReached
  · -- the entry is passed; it loses a visit and falls back by at most three sweeps
    obtain ⟨rest, budgetSplit⟩ := Nat.exists_eq_add_of_lt reached
    have front : (dial.entries.take dial.budget).map Entry.age =
        before.map Entry.age ++ entry.age :: (after.take rest).map Entry.age := by
      rw [split, budgetSplit, Nat.add_assoc, List.take_length_add_append, List.take_succ_cons]
      simp
    rw [front, ← List.append_assoc] at turned
    have position : (dial.entries.drop dial.budget ++ before.map Entry.age).length /
        dial.sweep.1.budget < 3 := position_div_budget (by simp [turned])
    have heavy : 0 < entry.age.visits := validAfter.visited entry.age (by simp [turned])
    have counted : 3 * (entry.visits - 1) < count + 1 :=
      Nat.lt_of_le_of_lt (Nat.le_add_right _ _) soon
    refine ⟨_, _, _, turned, ?_⟩
    simp only [Entry.age] at heavy ⊢
    omega
  · have behind : dial.entries.drop dial.budget =
        before.drop dial.budget ++ entry :: after := by
      rw [split, List.drop_append_of_le_length notReached]
    rw [behind, List.append_assoc, List.cons_append] at turned
    have nearer := Nat.div_eq_sub_div positive notReached
    refine ⟨_, _, _, turned, ?_⟩
    rw [sameBudget, List.length_drop]
    omega

end Dial

end BoundedCache.Clock
