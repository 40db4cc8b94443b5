import BoundedCache.Proofs.Clock.Precedence
import Mathlib.Algebra.Ring.Nat

/-!
# Draining a table

Every sweep of a table with entries consumes visits, so a table that is only swept becomes empty.
The victims leave in the order in which the entries precede one another.
-/

namespace BoundedCache.Clock

variable {κ ν : Type}

/-! ## Visits that are left -/

/-- The visits of all entries together. -/
def weight (entries : List (Entry κ ν)) : Nat :=
  (entries.map Entry.visits).sum

@[simp] theorem weight_nil : weight ([] : List (Entry κ ν)) = 0 := rfl

@[simp] theorem weight_cons (entry : Entry κ ν) (entries : List (Entry κ ν)) :
    weight (entry :: entries) = entry.visits + weight entries := by
  simp [weight]

@[simp] theorem weight_append (entries others : List (Entry κ ν)) :
    weight (entries ++ others) = weight entries + weight others := by
  simp [weight]

theorem weight_age {entries : List (Entry κ ν)} (visited : ∀ entry ∈ entries, 0 < entry.visits) :
    weight (entries.map Entry.age) + entries.length = weight entries := by
  induction entries with
  | nil => rfl
  | cons entry rest inductionHypothesis =>
      have here := visited entry (List.mem_cons_self)
      have others := inductionHypothesis fun other member =>
        visited other (List.mem_cons_of_mem _ member)
      simp only [List.map_cons, weight_cons, List.length_cons, Entry.age]
      omega

/-- A stroke consumes one visit of each entry that it reaches. -/
theorem weight_strike [BEq κ] {entries : List (Entry κ ν)} (valid : Valid entries)
    (budget : Nat) :
    weight (strike budget entries).turned + (strike budget entries).reached = weight entries := by
  obtain ⟨front, found, split, passes, finds, heavy, light⟩ := strike_split budget entries
  rw [Stroke.turned, Stroke.reached, passes, finds]
  generalize (strike budget entries).ahead = ahead at *
  subst split
  have aged := weight_age fun entry member => Nat.lt_trans Nat.zero_lt_one (heavy entry member)
  cases found with
  | none =>
      simp
      omega
  | some entry =>
      have visited := valid.visited entry (by simp)
      have spent := light entry rfl
      simp
      omega

theorem reached_pos {budget : Nat} {entries : List (Entry κ ν)} (someBudget : 0 < budget)
    (someEntries : entries ≠ []) : 0 < (strike budget entries).reached := by
  cases budget with
  | zero => contradiction
  | succ budget =>
      cases entries with
      | nil => contradiction
      | cons entry rest =>
          simp only [strike]
          split
          · simp [Stroke.reached]
          · simp only [Stroke.reached, List.length_cons]
            omega

/-- A sweep consumes visits, unless there is no entry. -/
theorem Dial.weight_sweep [BEq κ] {dial : Dial κ ν} (valid : Valid dial.entries)
    (someEntries : dial.entries ≠ []) : weight dial.sweep.1.entries < weight dial.entries := by
  have lost := weight_strike valid dial.budget
  have someBudget : 0 < dial.budget := Nat.succ_pos _
  have reached := reached_pos someBudget someEntries
  rw [Dial.sweep, if_neg (by simpa using someEntries)]
  dsimp only
  omega

/-! ## The order of the victims -/

theorem image_of_mem {α β : Type} {R : β → α → Prop} {images : List β} {list : List α}
    (corresponds : List.Forall₂ R images list) {element : α} (member : element ∈ list) :
    ∃ image ∈ images, R image element := by
  induction corresponds with
  | nil => contradiction
  | cons related _ inductionHypothesis =>
      rcases List.mem_cons.1 member with rfl | later
      · exact ⟨_, List.mem_cons_self, related⟩
      · obtain ⟨image, imageMember, imageRelated⟩ := inductionHypothesis later
        exact ⟨image, List.mem_cons_of_mem _ imageMember, imageRelated⟩

/-- What holds of all pairs of images in a list carries over to the elements they belong to. -/
theorem pairwise_of_images {α β : Type} {R : β → α → Prop} {P : β → β → Prop}
    {Q : α → α → Prop} {images : List β} {list : List α} (corresponds : List.Forall₂ R images list)
    (carries : ∀ {a b : α} {a' b' : β}, R a' a → R b' b → P a' b' → Q a b)
    (pairs : images.Pairwise P) : list.Pairwise Q := by
  induction corresponds with
  | nil => exact .nil
  | cons related others inductionHypothesis =>
      obtain ⟨ahead, rest⟩ := List.pairwise_cons.1 pairs
      refine List.pairwise_cons.2 ⟨?_, inductionHypothesis rest⟩
      intro later member
      obtain ⟨image, imageMember, imageRelated⟩ := image_of_mem others member
      exact carries related imageRelated (ahead image imageMember)

section Order

variable {front ahead : List (Entry κ ν)} {found : Option (Entry κ ν)}

theorem Turns.unique (distinct : (front ++ found.toList ++ ahead).Nodup)
    {before after other : Entry κ ν} (turns : Turns front ahead before after)
    (otherTurns : Turns front ahead before other) : after = other := by
  have apart : ∀ entry ∈ front, entry ∉ ahead := by
    intro entry inFront inAhead
    exact (List.nodup_append.1 distinct).2.2 entry (List.mem_append_left _ inFront) entry inAhead
      rfl
  rcases turns with ⟨inAhead, rfl⟩ | ⟨inFront, rfl⟩ <;>
    rcases otherTurns with ⟨otherAhead, rfl⟩ | ⟨otherFront, rfl⟩
  · rfl
  · exact absurd inAhead (apart _ otherFront)
  · exact absurd otherAhead (apart _ inFront)
  · rfl

theorem Turns.member {before after : Entry κ ν} (turns : Turns front ahead before after) :
    before ∈ front ++ found.toList ++ ahead := by
  rcases turns with ⟨inAhead, _⟩ | ⟨inFront, _⟩
  · exact List.mem_append_right _ inAhead
  · exact List.mem_append_left _ (List.mem_append_left _ inFront)

/-- The order after a stroke was the order before it. -/
theorem Precedes.of_turn (distinct : (front ++ found.toList ++ ahead).Nodup)
    (distinctAfter : (ahead ++ front.map Entry.age).Nodup)
    (heavy : ∀ entry ∈ front, 1 < entry.visits)
    {first second firstAfter secondAfter : Entry κ ν}
    (firstTurns : Turns front ahead first firstAfter)
    (secondTurns : Turns front ahead second secondAfter)
    (precedes : Precedes (ahead ++ front.map Entry.age) firstAfter secondAfter) :
    Precedes (front ++ found.toList ++ ahead) first second := by
  have different : first ≠ second := by
    rintro rfl
    rw [firstTurns.unique distinct secondTurns] at precedes
    exact precedes.asymm distinctAfter precedes
  refine (precedes_total firstTurns.member secondTurns.member different).resolve_right ?_
  intro swapped
  exact precedes.asymm distinctAfter (swapped.turn distinct heavy secondTurns firstTurns)

/-- Every entry that stays has a turned one, in the same place. -/
theorem turns_forall₂ (front ahead : List (Entry κ ν)) :
    List.Forall₂ (flip (Turns front ahead)) (ahead ++ front.map Entry.age) (ahead ++ front) := by
  refine List.rel_append ?_ ?_
  · exact List.forall₂_same.2 fun entry member => .inl ⟨member, rfl⟩
  · exact List.forall₂_map_left_iff.2
      (List.forall₂_same.2 fun entry member => .inr ⟨member, rfl⟩)

/-- A victim comes before all that stay, and they stay in their order. -/
theorem order_of_stroke [BEq κ] [EquivBEq κ] (valid : Valid (front ++ found.toList ++ ahead))
    (validAfter : Valid (ahead ++ front.map Entry.age))
    (heavy : ∀ entry ∈ front, 1 < entry.visits) (light : ∀ entry ∈ found, entry.visits ≤ 1)
    {orderAfter : List (Entry κ ν)} (isPerm : orderAfter.Perm (ahead ++ front.map Entry.age))
    (ordered : orderAfter.Pairwise (Precedes (ahead ++ front.map Entry.age))) :
    ∃ order : List (Entry κ ν), order.Perm (front ++ found.toList ++ ahead) ∧
      order.Pairwise (Precedes (front ++ found.toList ++ ahead)) ∧
      order.map Entry.spent = (found.map Entry.age).toList ++ orderAfter.map Entry.spent := by
  obtain ⟨stayed, corresponds, stayedPerm⟩ :=
    List.perm_comp_forall₂ isPerm (turns_forall₂ front ahead)
  have distinct := valid.nodup
  have stayedOrdered := pairwise_of_images corresponds
    (fun firstTurns secondTurns => Precedes.of_turn distinct validAfter.nodup heavy
      firstTurns secondTurns) ordered
  have sameSpent : stayed.map Entry.spent = orderAfter.map Entry.spent := by
    rw [← List.forall₂_eq_eq_eq, List.forall₂_map_left_iff, List.forall₂_map_right_iff]
    exact corresponds.flip.imp fun _ _ turns => turns.spent_eq.symm
  cases found with
  | none =>
      rw [Option.toList_none, List.append_nil] at *
      exact ⟨stayed, stayedPerm.trans List.perm_append_comm, stayedOrdered, sameSpent⟩
  | some victim =>
      have victimMember : victim ∈ front ++ [victim] ++ ahead := by simp
      have victimVisited := valid.visited victim victimMember
      have victimLight := light victim rfl
      refine ⟨victim :: stayed, ?_, List.pairwise_cons.2 ⟨?_, stayedOrdered⟩, ?_⟩
      · have inPlace : (front ++ [victim] ++ ahead).Perm (victim :: (front ++ ahead)) := by
          rw [List.append_assoc, List.singleton_append]
          exact List.perm_middle
        exact ((stayedPerm.trans List.perm_append_comm).cons victim).trans inPlace.symm
      · intro other member
        have otherMember : other ∈ front ++ [victim] ++ ahead := by
          have stays := stayedPerm.subset member
          simp only [List.mem_append] at stays ⊢
          tauto
        refine ⟨victimMember, otherMember, ?_⟩
        rcases List.mem_append.1 (stayedPerm.subset member) with inAhead | inFront
        · have behind : [victim, other].Sublist (front ++ [victim] ++ ahead) := by
            rw [List.append_assoc]
            exact ((List.singleton_sublist.2 inAhead).cons_cons victim).trans
              (List.sublist_append_right _ _)
          have otherVisited := valid.visited other otherMember
          rcases Nat.lt_or_ge victim.visits other.visits with lighter | notLighter
          · exact .inl lighter
          · exact .inr ⟨by omega, behind⟩
        · have otherHeavy := heavy other inFront
          exact .inl (by omega)
      · have spent : victim.age = victim.spent := Entry.age_eq_spent victimLight
        simp [sameSpent, spent, Entry.spent]

end Order

/-! ## Sweeping until nothing is left -/

variable [BEq κ]

theorem Dial.run_sweeps_succ (dial : Dial κ ν) (count : Nat) :
    dial.run (List.replicate (count + 1) .sweep) =
      ((dial.sweep.1.run (List.replicate count .sweep)).1,
        .victim dial.sweep.2 :: (dial.sweep.1.run (List.replicate count .sweep)).2) := rfl

/-- A dial that is swept often enough gives up all its entries in the order in which they precede
one another. -/
theorem Dial.drain [EquivBEq κ] (count : Nat) :
    ∀ {dial : Dial κ ν}, Valid dial.entries → weight dial.entries ≤ count →
      ∃ order : List (Entry κ ν),
        order.Perm dial.entries ∧ order.Pairwise (Precedes dial.entries) ∧
        (dial.run (List.replicate count .sweep)).2.filterMap Reply.evicted =
          order.map Entry.spent ∧
        (dial.run (List.replicate count .sweep)).1.entries = [] := by
  induction count with
  | zero =>
      intro dial valid enough
      have none : dial.entries = [] := by
        cases split : dial.entries with
        | nil => rfl
        | cons entry rest =>
            have visited := valid.visited entry (by simp [split])
            rw [split, weight_cons] at enough
            omega
      exact ⟨[], by rw [none], .nil, rfl, none⟩
  | succ count inductionHypothesis =>
      intro dial valid enough
      rw [Dial.run_sweeps_succ]
      have lighter : weight dial.sweep.1.entries ≤ count := by
        by_cases none : dial.entries = []
        · simp [Dial.sweep, none]
        · have lost := Dial.weight_sweep valid none
          omega
      have validAfter := Dial.valid_sweep valid
      obtain ⟨orderAfter, isPerm, ordered, victims, final⟩ :=
        inductionHypothesis validAfter lighter
      obtain ⟨front, ahead, found, split, turned, evicted, heavy, light⟩ := dial.sweep_split
      rw [split] at valid ⊢
      rw [turned] at isPerm ordered validAfter
      obtain ⟨order, allPerm, allOrdered, spent⟩ :=
        order_of_stroke valid validAfter heavy light isPerm ordered
      refine ⟨order, allPerm, allOrdered, ?_, final⟩
      rw [spent, ← victims, ← evicted]
      cases dial.sweep.2 with
      | none => exact List.filterMap_cons_none rfl
      | some victim => exact List.filterMap_cons_some rfl

/-! ## Tables -/

/-- The entries leave the table in the order in which they precede one another. -/
structure Table.EvictsInPrecedence (table : Table κ ν) (entries : List (Entry κ ν)) : Prop where
  /-- As long as requests leave two entries alone, the second is evicted only after the first. -/
  waits : ∀ first second, Precedes entries first second → ∀ requests : List (Request κ ν),
    (∀ request ∈ requests, request.spares first ∧ request.spares second) →
    ∃ final replies, serveAll Table.serve table requests = .ok (final, replies) ∧
      ∀ before reply after victim, replies = before ++ reply :: after →
        reply.evicted = some victim → victim.holds second.hash second.key →
        ∃ earlier ∈ before, earlier.evicted = some first.spent
  /-- Sweeps alone evict all entries, sorted. -/
  drains : ∃ order : List (Entry κ ν), order.Perm entries ∧ order.Pairwise (Precedes entries) ∧
    ∀ count ≥ weight entries, ∃ final replies,
      serveAll Table.serve table (List.replicate count .sweep) = .ok (final, replies) ∧
      replies.filterMap Reply.evicted = order.map Entry.spent ∧ final.size = 0

/-- A table that is in use evicts its entries in precedence, whatever requests came before. -/
theorem Table.evicts_in_precedence [EquivBEq κ] {buckets : Nat} {fresh table : Table κ ν}
    {past : List (Request κ ν)} {answers : List (Reply κ ν)}
    (built : Table.ofBuckets buckets = .ok fresh)
    (served : serveAll Table.serve fresh past = .ok (table, answers)) :
    ∃ entries, table.entries = .ok entries ∧ table.EvictsInPrecedence entries := by
  obtain ⟨dial, shows, valid⟩ := Table.shows_of_reached built served
  refine ⟨dial.entries, shows.entries_eq, ?_, ?_⟩
  · intro first second precedes requests spared
    obtain ⟨final, run, _⟩ := shows.run requests
    refine ⟨final, _, run, ?_⟩
    intro before reply after victim replies evicted holds
    have apart : ¬ first.holds second.hash second.key := by
      intro same
      have equal := valid.unique precedes.firstMember precedes.secondMember same second.holds_self
      subst equal
      exact precedes.asymm valid.nodup precedes
    exact Dial.awaits_run valid apart (precedes.awaits valid) spared replies evicted holds
  · obtain ⟨order, isPerm, ordered, _⟩ := Dial.drain (weight dial.entries) valid (Nat.le_refl _)
    refine ⟨order, isPerm, ordered, fun count enough => ?_⟩
    obtain ⟨final, run, showsFinal⟩ := shows.run (List.replicate count .sweep)
    obtain ⟨victims, victimsPerm, victimsOrdered, leave, empty⟩ := Dial.drain count valid enough
    have sameOrder : victims = order :=
      List.Perm.eq_of_pairwise
        (fun one other _ _ precedes swapped => absurd swapped (precedes.asymm valid.nodup))
        victimsOrdered ordered (victimsPerm.trans isPerm.symm)
    refine ⟨final, _, run, sameOrder ▸ leave, ?_⟩
    rw [showsFinal.size, empty, List.length_nil]

/-- Three keys under colliding hash codes, one of them visited twice and one removed again. -/
theorem Table.evicts_in_precedence_three_keys :
    ∃ (table : Table Nat Nat) (answers : List (Reply Nat Nat)),
      serveAll Table.serve (Table.empty 2)
        [.put 0 1 10, .put 0 2 20, .get 0 1, .put 2 3 30, .remove 0 2] = .ok (table, answers) ∧
      ∃ entries, table.entries = .ok entries ∧ table.EvictsInPrecedence entries := by
  have built : Table.ofBuckets 2 = .ok (Table.empty 2 : Table Nat Nat) := rfl
  have shows : (Table.empty 2 : Table Nat Nat).Shows .empty := Table.shows_empty (by decide)
  obtain ⟨table, served, _⟩ :=
    shows.run [.put 0 1 10, .put 0 2 20, .get 0 1, .put 2 3 30, .remove 0 2]
  exact ⟨table, _, served, Table.evicts_in_precedence built served⟩

end BoundedCache.Clock
