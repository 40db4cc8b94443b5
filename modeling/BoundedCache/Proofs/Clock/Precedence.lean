import BoundedCache.Proofs.Clock.Requests
import Mathlib.Data.List.Perm.Basic

/-!
# The order in which entries are evicted

One entry precedes another if it has fewer visits left, or as many and the hand meets it earlier.
The hand passes two entries in turn, so a sweep takes a visit from each or changes which of them
it meets first; either way the one that came first still does. So entries leave a table in this
order, however sweeps are mixed with requests for other keys, and a table that is only swept gives
up all its entries in this order.
-/

namespace BoundedCache.Clock

variable {κ ν : Type}

/-! ## Precedence -/

/-- The first entry has fewer visits left than the second, or as many and is met earlier. -/
structure Precedes (entries : List (Entry κ ν)) (first second : Entry κ ν) : Prop where
  firstMember : first ∈ entries
  secondMember : second ∈ entries
  order : first.visits < second.visits ∨
    first.visits = second.visits ∧ [first, second].Sublist entries

/-- Two elements in this order lie in one part or in both. -/
theorem pair_sublist_append {α : Type} {first second : α} {left right : List α}
    (ordered : [first, second].Sublist (left ++ right)) :
    [first, second].Sublist left ∨ (first ∈ left ∧ second ∈ right) ∨
      [first, second].Sublist right := by
  obtain ⟨inLeft, inRight, split, leftSublist, rightSublist⟩ :=
    List.sublist_append_iff.1 ordered
  match inLeft, split with
  | [], split => exact .inr (.inr (split ▸ rightSublist))
  | [one], split =>
      obtain ⟨rfl, rfl⟩ := List.cons.inj split
      exact .inr (.inl ⟨by simpa using leftSublist, by simpa using rightSublist⟩)
  | [one, other], split =>
      obtain ⟨rfl, rest⟩ := List.cons.inj split
      obtain ⟨rfl, _⟩ := List.cons.inj rest
      exact .inl leftSublist

/-- If the second of two elements in this order lies in the left part, so do both. -/
theorem pair_sublist_left {α : Type} {first second : α} {left right : List α}
    (distinct : (left ++ right).Nodup) (ordered : [first, second].Sublist (left ++ right))
    (secondLeft : second ∈ left) : [first, second].Sublist left := by
  have apart := (List.nodup_append.1 distinct).2.2 second secondLeft second
  rcases pair_sublist_append ordered with inLeft | ⟨_, inRight⟩ | inRight
  · exact inLeft
  · exact absurd rfl (apart inRight)
  · exact absurd rfl (apart (inRight.subset (by simp)))

/-- If the first of two elements in this order lies in the right part, so do both. -/
theorem pair_sublist_right {α : Type} {first second : α} {left right : List α}
    (distinct : (left ++ right).Nodup) (ordered : [first, second].Sublist (left ++ right))
    (firstRight : first ∈ right) : [first, second].Sublist right := by
  have apart := (List.nodup_append.1 distinct).2.2
  rcases pair_sublist_append ordered with inLeft | ⟨inLeft, _⟩ | inRight
  · exact absurd rfl (apart first (inLeft.subset (by simp)) first firstRight)
  · exact absurd rfl (apart first inLeft first firstRight)
  · exact inRight

theorem not_pair_sublist_swap {α : Type} {first second : α} {list : List α} (distinct : list.Nodup)
    (ordered : [first, second].Sublist list) : ¬ [second, first].Sublist list := by
  induction list with
  | nil => simp at ordered
  | cons head rest inductionHypothesis =>
      intro swapped
      have apart := List.nodup_cons.1 distinct
      have secondRest := (List.sublist_cons_iff.1 ordered)
      have firstRest := (List.sublist_cons_iff.1 swapped)
      grind

variable {entries : List (Entry κ ν)} {first second : Entry κ ν}

theorem Precedes.asymm (distinct : entries.Nodup) (precedes : Precedes entries first second) :
    ¬ Precedes entries second first := by
  intro other
  rcases precedes.order with lighter | ⟨same, ordered⟩ <;>
    rcases other.order with otherLighter | ⟨otherSame, swapped⟩
  · omega
  · omega
  · omega
  · exact not_pair_sublist_swap distinct ordered swapped

theorem precedes_total (firstMember : first ∈ entries) (secondMember : second ∈ entries)
    (different : first ≠ second) :
    Precedes entries first second ∨ Precedes entries second first := by
  rcases Nat.lt_trichotomy first.visits second.visits with lighter | same | heavier
  · exact .inl ⟨firstMember, secondMember, .inl lighter⟩
  · obtain ⟨before, after, rfl⟩ := List.append_of_mem firstMember
    have elsewhere : second ∈ before ∨ second ∈ after := by
      have cases := List.mem_append.1 secondMember
      rw [List.mem_cons] at cases
      tauto
    rcases elsewhere with inBefore | inAfter
    · refine .inr ⟨secondMember, firstMember, .inr ⟨same.symm, ?_⟩⟩
      exact (List.singleton_sublist.2 inBefore).append
        ((List.nil_sublist after).cons_cons first)
    · refine .inl ⟨firstMember, secondMember, .inr ⟨same, ?_⟩⟩
      exact ((List.singleton_sublist.2 inAfter).cons_cons first).trans
        (List.sublist_append_right before _)
  · exact .inr ⟨secondMember, firstMember, .inl heavier⟩

/-- Entries keep their order where others are added, dropped or changed. -/
theorem Precedes.append (precedes : Precedes entries first second) (more : List (Entry κ ν)) :
    Precedes (entries ++ more) first second where
  firstMember := List.mem_append_left _ precedes.firstMember
  secondMember := List.mem_append_left _ precedes.secondMember
  order := precedes.order.imp_right fun tie => ⟨tie.1, tie.2.trans (List.sublist_append_left _ _)⟩

theorem Precedes.filter (precedes : Precedes entries first second) (keep : Entry κ ν → Bool)
    (firstKept : keep first) (secondKept : keep second) :
    Precedes (entries.filter keep) first second where
  firstMember := List.mem_filter.2 ⟨precedes.firstMember, firstKept⟩
  secondMember := List.mem_filter.2 ⟨precedes.secondMember, secondKept⟩
  order := precedes.order.imp_right fun tie =>
    ⟨tie.1, by simpa [firstKept, secondKept] using tie.2.filter keep⟩

theorem Precedes.map (precedes : Precedes entries first second)
    {change : Entry κ ν → Entry κ ν} (firstSame : change first = first)
    (secondSame : change second = second) : Precedes (entries.map change) first second where
  firstMember := List.mem_map.2 ⟨first, precedes.firstMember, firstSame⟩
  secondMember := List.mem_map.2 ⟨second, precedes.secondMember, secondSame⟩
  order := precedes.order.imp_right fun tie =>
    ⟨tie.1, by simpa [firstSame, secondSame] using tie.2.map change⟩

/-! ## One stroke -/

/-- What remains of an entry once all its visits are consumed. -/
def Entry.spent (entry : Entry κ ν) : Entry κ ν :=
  { entry with visits := 0 }

theorem Entry.age_eq_spent {entry : Entry κ ν} (light : entry.visits ≤ 1) :
    entry.age = entry.spent := by
  rw [age, spent, Nat.sub_eq_zero_of_le light]

/-- How an entry that is not the victim comes out of a stroke that passes `front`. -/
def Turns (front ahead : List (Entry κ ν)) (before after : Entry κ ν) : Prop :=
  (before ∈ ahead ∧ after = before) ∨ (before ∈ front ∧ after = before.age)

theorem Turns.spent_eq {front ahead : List (Entry κ ν)} {before after : Entry κ ν}
    (turns : Turns front ahead before after) : after.spent = before.spent := by
  rcases turns with ⟨_, rfl⟩ | ⟨_, rfl⟩ <;> rfl

section Stroke

variable {front ahead : List (Entry κ ν)} {found : Option (Entry κ ν)}
  {first second firstAfter secondAfter : Entry κ ν}

/-- The entry that precedes another is not passed over while the other is found. -/
theorem Precedes.second_not_found (distinct : (front ++ found.toList ++ ahead).Nodup)
    (visited : ∀ entry ∈ front ++ found.toList ++ ahead, 0 < entry.visits)
    (heavy : ∀ entry ∈ front, 1 < entry.visits) (light : ∀ entry ∈ found, entry.visits ≤ 1)
    (precedes : Precedes (front ++ found.toList ++ ahead) first second) :
    found ≠ some second := by
  rintro rfl
  have firstVisited := visited first precedes.firstMember
  have secondLight := light second rfl
  rcases precedes.order with lighter | ⟨same, ordered⟩
  · omega
  · have firstInFront : first ∈ front := by
      simp only [Option.toList_some] at ordered distinct
      rw [List.append_assoc] at ordered distinct
      have apart := List.nodup_append.1 distinct
      rcases pair_sublist_append ordered with inFront | ⟨inFront, _⟩ | behind
      · exact inFront.subset (by simp)
      · exact inFront
      · -- behind the front the second entry comes first
        have fromSecond : [second, first].Sublist (second :: ahead) := by
          have member := behind.subset (List.mem_cons_self)
          have different : first ≠ second := by
            rintro rfl
            have twice := behind.nodup apart.2.1
            simp at twice
          refine (List.singleton_sublist.2 ?_).cons_cons second
          simpa [different] using member
        exact absurd fromSecond (not_pair_sublist_swap apart.2.1 behind)
    have firstHeavy := heavy first firstInFront
    omega

/-- A stroke keeps the order of two entries that stay. -/
theorem Precedes.turn (distinct : (front ++ found.toList ++ ahead).Nodup)
    (heavy : ∀ entry ∈ front, 1 < entry.visits)
    (precedes : Precedes (front ++ found.toList ++ ahead) first second)
    (firstTurns : Turns front ahead first firstAfter)
    (secondTurns : Turns front ahead second secondAfter) :
    Precedes (ahead ++ front.map Entry.age) firstAfter secondAfter := by
  have agedMember : ∀ entry ∈ front, entry.age ∈ ahead ++ front.map Entry.age :=
    fun entry member => List.mem_append_right _ (List.mem_map_of_mem member)
  have notHeavier : first.visits ≤ second.visits := by
    rcases precedes.order with lighter | ⟨same, _⟩ <;> omega
  have inFront : second ∈ front → [first, second].Sublist (front ++ found.toList ++ ahead) →
      [first, second].Sublist front := by
    intro secondFront ordered
    rw [List.append_assoc] at distinct ordered
    exact pair_sublist_left distinct ordered secondFront
  rcases firstTurns with ⟨firstAhead, rfl⟩ | ⟨firstFront, rfl⟩ <;>
    rcases secondTurns with ⟨secondAhead, rfl⟩ | ⟨secondFront, rfl⟩
  · refine ⟨List.mem_append_left _ firstAhead, List.mem_append_left _ secondAhead, ?_⟩
    refine precedes.order.imp_right fun tie => ⟨tie.1, ?_⟩
    exact (pair_sublist_right distinct tie.2 firstAhead).trans (List.sublist_append_left _ _)
  · -- the second entry is passed and the first is not, so the first was lighter
    refine ⟨List.mem_append_left _ firstAhead, agedMember second secondFront, ?_⟩
    have lighter : firstAfter.visits < second.visits := by
      refine precedes.order.resolve_right fun tie => ?_
      have firstFront : firstAfter ∈ front := (inFront secondFront tie.2).subset (by simp)
      exact (List.nodup_append.1 distinct).2.2 firstAfter (List.mem_append_left _ firstFront)
        firstAfter firstAhead rfl
    have orderAfter : [firstAfter, second.age].Sublist (ahead ++ front.map Entry.age) :=
      (List.singleton_sublist.2 firstAhead).append
        (List.singleton_sublist.2 (List.mem_map_of_mem secondFront))
    have secondHeavy := heavy second secondFront
    simp only [Entry.age] at orderAfter ⊢
    rcases Nat.lt_or_eq_of_le (Nat.le_sub_one_of_lt lighter) with still | same
    · exact .inl still
    · exact .inr ⟨same, orderAfter⟩
  · refine ⟨agedMember first firstFront, List.mem_append_left _ secondAhead, .inl ?_⟩
    have firstHeavy := heavy first firstFront
    simp only [Entry.age]
    omega
  · refine ⟨agedMember first firstFront, agedMember second secondFront, ?_⟩
    have firstHeavy := heavy first firstFront
    have secondHeavy := heavy second secondFront
    rcases precedes.order with lighter | ⟨same, ordered⟩
    · refine .inl ?_
      simp only [Entry.age]
      omega
    · refine .inr ⟨by simp only [Entry.age, same], ?_⟩
      exact ((inFront secondFront ordered).map Entry.age).trans (List.sublist_append_right _ _)

end Stroke

/-! ## Requests for other keys -/

section Requests

variable [BEq κ]

/-- Whether a request leaves the key of an entry alone. -/
def Request.spares (entry : Entry κ ν) : Request κ ν → Prop
  | .get hash key => ¬ entry.holds hash key
  | .put hash key _ => ¬ entry.holds hash key
  | .remove hash key => ¬ entry.holds hash key
  | .sweep => True
  | .clear => True

/-- As long as the second entry is held the first one is too, and precedes it. -/
def Awaits (entries : List (Entry κ ν)) (first second : Entry κ ν) : Prop :=
  ∀ late ∈ entries, late.holds second.hash second.key →
    ∃ early, early.spent = first.spent ∧ Precedes entries early late

theorem Entry.holds_of_spent_eq {entry other : Entry κ ν} (same : other.spent = entry.spent)
    (hash : UInt32) (key : κ) : other.holds hash key = entry.holds hash key := by
  have sameHash : other.spent.hash = entry.spent.hash := by rw [same]
  have sameKey : other.spent.key = entry.spent.key := by rw [same]
  simp only [Entry.spent] at sameHash sameKey
  rw [Entry.holds, Entry.holds, sameHash, sameKey]

theorem Entry.holds_trans [PartialEquivBEq κ] {entry other : Entry κ ν} {hash : UInt32} {key : κ}
    (holdsOther : entry.holds other.hash other.key) (holds : entry.holds hash key) :
    other.holds hash key := by
  rw [Entry.holds_iff] at *
  exact ⟨holdsOther.1.symm.trans holds.1,
    PartialEquivBEq.trans (PartialEquivBEq.symm holdsOther.2) holds.2⟩

theorem Valid.nodup [ReflBEq κ] (valid : Valid entries) : entries.Nodup := by
  refine valid.distinct.imp ?_
  rintro one other apart rfl
  exact apart one.holds_self

theorem Precedes.awaits [PartialEquivBEq κ] [ReflBEq κ] (valid : Valid entries)
    (precedes : Precedes entries first second) : Awaits entries first second := by
  intro late member holds
  have same := valid.unique member precedes.secondMember holds second.holds_self
  exact ⟨first, rfl, same ▸ precedes⟩

section Steps

variable {hash : UInt32} {key : κ}

theorem Awaits.concat (awaits : Awaits entries first second) {entry : Entry κ ν}
    (other : ¬ entry.holds second.hash second.key) : Awaits (entries ++ [entry]) first second := by
  intro late member holds
  rcases List.mem_append.1 member with old | new
  · obtain ⟨early, same, precedes⟩ := awaits late old holds
    exact ⟨early, same, precedes.append _⟩
  · rw [List.mem_singleton.1 new] at holds
    exact absurd holds other

theorem Awaits.drop (awaits : Awaits entries first second) (sparesFirst : ¬ first.holds hash key) :
    Awaits (dropEntry hash key entries) first second := by
  intro late member holds
  obtain ⟨old, kept⟩ := List.mem_filter.1 member
  obtain ⟨early, same, precedes⟩ := awaits late old holds
  have earlyKept : ¬ early.holds hash key := by
    rwa [Entry.holds_of_spent_eq same]
  exact ⟨early, same, precedes.filter _ (by simpa using earlyKept) kept⟩

variable [EquivBEq κ]

theorem Awaits.revise (awaits : Awaits entries first second) (change : Entry κ ν → Entry κ ν)
    (sameHash : ∀ entry, (change entry).hash = entry.hash)
    (sameKey : ∀ entry, (change entry).key = entry.key)
    (sparesFirst : ¬ first.holds hash key) (sparesSecond : ¬ second.holds hash key) :
    Awaits (reviseEntry change hash key entries) first second := by
  intro late member holds
  obtain ⟨original, originalMember, rfl⟩ := List.mem_map.1 member
  have untouched : ¬ original.holds hash key := by
    intro touched
    rw [if_pos touched, Entry.holds_iff, sameHash, sameKey, ← Entry.holds_iff] at holds
    exact sparesSecond (Entry.holds_trans holds touched)
  rw [if_neg untouched] at holds ⊢
  obtain ⟨early, same, precedes⟩ := awaits original originalMember holds
  have earlyUntouched : ¬ early.holds hash key := by
    rwa [Entry.holds_of_spent_eq same]
  exact ⟨early, same, precedes.map (if_neg earlyUntouched) (if_neg untouched)⟩

/-- A sweep evicts the first entry, or it keeps the second and the order of the two. -/
theorem Awaits.sweep {dial : Dial κ ν} (valid : Valid dial.entries)
    (awaits : Awaits dial.entries first second) (firstStays : dial.sweep.2 ≠ some first.spent) :
    (∀ victim ∈ dial.sweep.2, ¬ victim.holds second.hash second.key) ∧
      Awaits dial.sweep.1.entries first second := by
  obtain ⟨front, ahead, found, split, turned, evicted, heavy, light⟩ := dial.sweep_split
  rw [split] at valid awaits
  rw [evicted] at firstStays
  rw [turned, evicted]
  have distinct := valid.nodup
  constructor
  · intro victim leaves holds
    obtain ⟨late, isFound, rfl⟩ := Option.map_eq_some_iff.1 leaves
    have member : late ∈ front ++ found.toList ++ ahead := by simp [isFound]
    obtain ⟨early, _, precedes⟩ := awaits late member holds
    exact precedes.second_not_found distinct valid.visited heavy light isFound
  · intro lateAfter member holds
    have turned : ∃ late, Turns front ahead late lateAfter := by
      rcases List.mem_append.1 member with stayed | aged
      · exact ⟨lateAfter, .inl ⟨stayed, rfl⟩⟩
      · obtain ⟨late, inFront, same⟩ := List.mem_map.1 aged
        exact ⟨late, .inr ⟨inFront, same.symm⟩⟩
    obtain ⟨late, lateTurns⟩ := turned
    rw [Entry.holds_of_spent_eq lateTurns.spent_eq] at holds
    have lateMember : late ∈ front ++ found.toList ++ ahead := by
      rcases lateTurns with ⟨inAhead, _⟩ | ⟨inFront, _⟩
      · exact List.mem_append_right _ inAhead
      · exact List.mem_append_left _ (List.mem_append_left _ inFront)
    obtain ⟨early, same, precedes⟩ := awaits late lateMember holds
    have earlyTurns : ∃ earlyAfter, Turns front ahead early earlyAfter := by
      rcases List.mem_append.1 precedes.firstMember with inStroke | inAhead
      · rcases List.mem_append.1 inStroke with inFront | isFound
        · exact ⟨early.age, .inr ⟨inFront, rfl⟩⟩
        · -- the first entry would be the victim
          rw [Option.mem_toList] at isFound
          have earlyLight := light early isFound
          have aged : early.age = first.spent := by
            rw [← same, Entry.age, Entry.spent, Nat.sub_eq_zero_of_le earlyLight]
          exact absurd (by rw [Option.mem_def.1 isFound, Option.map_some, aged]) firstStays
      · exact ⟨early, .inl ⟨inAhead, rfl⟩⟩
    obtain ⟨earlyAfter, earlyTurns⟩ := earlyTurns
    exact ⟨earlyAfter, earlyTurns.spent_eq.trans same,
      precedes.turn distinct heavy earlyTurns lateTurns⟩

/-- A request for other keys evicts the first entry, or it keeps the second waiting. -/
theorem Dial.awaits_serve {dial : Dial κ ν} (valid : Valid dial.entries)
    (awaits : Awaits dial.entries first second) {request : Request κ ν}
    (sparesFirst : request.spares first) (sparesSecond : request.spares second)
    (firstStays : (dial.serve request).2.evicted ≠ some first.spent) :
    (∀ victim ∈ (dial.serve request).2.evicted, ¬ victim.holds second.hash second.key) ∧
      Awaits (dial.serve request).1.entries first second := by
  cases request with
  | get hash key =>
      refine ⟨by simp [Dial.serve, Reply.evicted], ?_⟩
      simp only [Dial.serve, Dial.get]
      cases dial.find? hash key with
      | none => exact awaits
      | some entry =>
          exact awaits.revise Entry.visit (fun _ => rfl) (fun _ => rfl) sparesFirst sparesSecond
  | put hash key value =>
      refine ⟨by simp [Dial.serve, Reply.evicted], ?_⟩
      simp only [Dial.serve, Dial.put]
      cases dial.find? hash key with
      | none => exact awaits.concat fun holds => sparesSecond (Entry.holds_symm holds)
      | some entry =>
          exact awaits.revise (fun entry => { entry.visit with value }) (fun _ => rfl)
            (fun _ => rfl) sparesFirst sparesSecond
  | remove hash key =>
      refine ⟨by simp [Dial.serve, Reply.evicted], ?_⟩
      simp only [Dial.serve, Dial.remove]
      cases dial.find? hash key with
      | none => exact awaits
      | some entry => exact awaits.drop sparesFirst
  | sweep =>
      exact awaits.sweep valid firstStays
  | clear => exact ⟨by simp [Dial.serve, Reply.evicted], by simp [Dial.serve, Dial.clear, Awaits]⟩

/-- Through requests for other keys, the second entry is evicted only after the first. -/
theorem Dial.awaits_run {requests : List (Request κ ν)} {dial : Dial κ ν}
    (valid : Valid dial.entries) (apart : ¬ first.holds second.hash second.key)
    (awaits : Awaits dial.entries first second)
    (spared : ∀ request ∈ requests, request.spares first ∧ request.spares second)
    {before after : List (Reply κ ν)} {reply : Reply κ ν} {victim : Entry κ ν}
    (replies : (dial.run requests).2 = before ++ reply :: after)
    (evicted : reply.evicted = some victim) (holds : victim.holds second.hash second.key) :
    ∃ earlier ∈ before, earlier.evicted = some first.spent := by
  induction requests generalizing dial before with
  | nil => simp [Dial.run] at replies
  | cons request rest inductionHypothesis =>
      obtain ⟨sparesFirst, sparesSecond⟩ := spared request (List.mem_cons_self)
      simp only [Dial.run] at replies
      by_cases firstLeaves : (dial.serve request).2.evicted = some first.spent
      · cases before with
        | nil =>
            obtain ⟨rfl, _⟩ := List.cons.inj replies
            rw [Option.some.inj (evicted.symm.trans firstLeaves)] at holds
            exact absurd holds apart
        | cons head others =>
            obtain ⟨rfl, _⟩ := List.cons.inj replies
            exact ⟨_, List.mem_cons_self, firstLeaves⟩
      · obtain ⟨secondStays, stillAwaits⟩ :=
          awaits_serve valid awaits sparesFirst sparesSecond firstLeaves
        cases before with
        | nil =>
            obtain ⟨rfl, _⟩ := List.cons.inj replies
            exact absurd holds (secondStays victim evicted)
        | cons head others =>
            obtain ⟨_, tail⟩ := List.cons.inj replies
            obtain ⟨earlier, member, leaves⟩ :=
              inductionHypothesis (valid_serve valid request) stillAwaits
                (fun other inRest => spared other (List.mem_cons_of_mem _ inRest)) tail
            exact ⟨earlier, List.mem_cons_of_mem _ member, leaves⟩

end Steps

end Requests

end BoundedCache.Clock
