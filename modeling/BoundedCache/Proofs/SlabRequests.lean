import BoundedCache.Proofs.Access.Sequence
import BoundedCache.Proofs.Slots
import BoundedCache.Proofs.Storage

/-!
# What a slab keeps

Whoever stores values in a slab knows what they hold from the answers alone: a handle comes with
each value stored, and goes when its slot is emptied or everything is cleared. Whatever is asked of
a slab, also of slots that are vacant or do not exist, it keeps exactly these values under exactly
these handles. The free slots are the vacant ones, and there are no more slots than were needed.
-/

namespace BoundedCache

variable {α : Type}

/-! ## Requests and answers -/

/-- What can be asked of a slab. -/
inductive SlabRequest (α : Type) where
  | insert (value : α)
  | erase (index : Nat)
  /-- The value is changed where it is stored. -/
  | revise (index : Nat) (change : α → α)
  | get (index : Nat)
  | clear

/-- What a slab answers. -/
inductive SlabAnswer (α : Type) where
  /-- The slot of the value that was stored. -/
  | index (index : Nat)
  /-- The value found, removed or replaced. -/
  | value (value : Option α)
  | cleared

/-- Whether the request drops all values. -/
def SlabRequest.clears : SlabRequest α → Bool
  | .clear => true
  | _ => false

/-- Whether the request empties a slot or changes the value there. -/
def SlabRequest.touches (index : Nat) : SlabRequest α → Prop
  | .erase other => other = index
  | .revise other _ => other = index
  | .clear => True
  | _ => False

namespace Slab

/-- Serves a request. -/
def serve (slab : Slab α) : SlabRequest α → Checked (Slab α × SlabAnswer α)
  | .insert value =>
      let (slab, index) := slab.insert value
      .ok (slab, .index index)
  | .erase index =>
      let (slab, value) := slab.erase index
      .ok (slab, .value value)
  | .revise index change =>
      match slab.get? index with
      | none => .ok (slab, .value none)
      | some value =>
          let (slab, old) := slab.replace index (change value)
          .ok (slab, .value old)
  | .get index => .ok (slab, .value (slab.get? index))
  | .clear => .ok (empty, .cleared)

/-! ## What the answers tell -/

open HandleSequence

/-- The values with their handles after a request, as far as its answer tells. -/
def holdingsAfter (holdings : List (Nat × α)) : SlabRequest α → SlabAnswer α → List (Nat × α)
  | .insert value, .index index => (index, value) :: holdings
  | .erase index, _ => without holdings index
  | .revise index change, _ => HandleSequence.revise holdings index change
  | .clear, _ => []
  | _, _ => holdings

/-- The values with their handles after a history. -/
def holdings : List (Nat × α) → List (SlabRequest α) → List (SlabAnswer α) → List (Nat × α)
  | held, request :: requests, answer :: answers =>
      holdings (holdingsAfter held request answer) requests answers
  | held, _, _ => held

/-- No two values have the same handle, and each is found under its own. -/
structure Represents (slab : Slab α) (held : List (Nat × α)) : Prop where
  distinct : (held.map Prod.fst).Nodup
  found : ∀ index value, slab.get? index = some value ↔ (index, value) ∈ held

/-- The free slots are the vacant ones, each listed once, and the others are counted. -/
structure Accounted (slab : Slab α) : Prop where
  freeDistinct : slab.free.Nodup
  freeVacant : ∀ index, index ∈ slab.free ↔ slab.slots[index]? = some none
  occupied : slab.occupied = slab.slots.countP Option.isSome
  size : slab.slots.size = slab.occupied + slab.free.length

/-- The value is stored in a slot that was vacant, or is new, and no other slot changes. -/
structure Stores (slab : Slab α) (value : α) (after : Slab α) (index : Nat) : Prop where
  vacant : slab.get? index = none
  stored : after.slots[index]? = some (some value)
  others : ∀ other, other ≠ index → after.slots[other]? = slab.slots[other]?

/-- The value of the slot, if it has one, is handed out. Then the slot is vacant and no other
changes; otherwise nothing does. -/
structure Empties (slab : Slab α) (index : Nat) (after : Slab α) (answer : Option α) : Prop where
  answers : ∀ value, answer = some value ↔ slab.slots[index]? = some (some value)
  emptied : answer.isSome → after.slots[index]? = some none ∧
    ∀ other, other ≠ index → after.slots[other]? = slab.slots[other]?
  untouched : answer = none → after = slab

/-! ## Single operations -/

variable {slab : Slab α} {index : Nat} {held : List (Nat × α)}

theorem slots_write (inBounds : index < slab.slots.size) (content : Option α) (other : Nat) :
    (slab.write index content).slots[other]? =
      if other = index then some content else slab.slots[other]? := by
  by_cases same : other = index
  · subst same
    simp [write, inBounds]
  · have different : index ≠ other := fun equality => same equality.symm
    simp [write, same, Array.getElem?_setIfInBounds_ne different]

theorem slots_eq_some_none_iff :
    slab.slots[index]? = some none ↔ index < slab.slots.size ∧ slab.get? index = none := by
  rw [get?]
  constructor
  · intro vacant
    exact ⟨(Array.getElem?_eq_some_iff.1 vacant).1, by rw [vacant]; rfl⟩
  · rintro ⟨inBounds, none⟩
    rw [Array.getElem?_eq_getElem inBounds] at none ⊢
    exact congrArg some none

/-- The slots are filled with the values that are found in them. -/
theorem countP_slots (slab : Slab α) : slab.slots.countP Option.isSome =
    ((List.range slab.slots.size).filter fun index => (slab.get? index).isSome).length := by
  have slots : slab.slots.toList = (List.range slab.slots.size).map slab.get? := by
    refine List.ext_getElem (by simp) fun index inBounds _ => ?_
    have inSlots : index < slab.slots.size := by simpa using inBounds
    rw [List.getElem_map, List.getElem_range, get?, Array.getElem?_eq_getElem inSlots]
    rfl
  rw [← Array.countP_toList, slots, List.countP_map, List.countP_eq_length_filter]
  rfl

theorem WellFormed.accounted (wellFormed : slab.WellFormed) : slab.Accounted where
  freeDistinct := wellFormed.freeDistinct
  freeVacant index := (wellFormed.memFree index).trans slots_eq_some_none_iff.symm
  occupied := by
    rw [countP_slots]
    refine wellFormed.occupied_eq (List.nodup_range.filter _) fun index => ?_
    rw [List.mem_filter, List.mem_range]
    refine ⟨And.right, fun isFilled => ⟨?_, isFilled⟩⟩
    obtain ⟨value, holds⟩ := Option.isSome_iff_exists.1 isFilled
    exact lt_size_of_get? holds
  size := wellFormed.counted.symm

theorem WellFormed.stores (wellFormed : slab.WellFormed) (value : α) :
    slab.Stores value (slab.insert value).1 (slab.insert value).2 := by
  refine ⟨get?_insert_snd wellFormed value, ?_, ?_⟩
  · rw [← get?_eq_some_iff, get?_insert wellFormed, if_pos rfl]
  · intro other different
    cases head : slab.free with
    | nil =>
        rw [insert_of_full head] at different ⊢
        simp [Array.getElem?_push, different]
    | cons index rest =>
        have inBounds := ((wellFormed.memFree index).1 (by simp [head])).1
        rw [insert_of_free head] at different ⊢
        exact (slots_write inBounds _ other).trans (if_neg different)

theorem empties (slab : Slab α) (index : Nat) :
    slab.Empties index (slab.erase index).1 (slab.erase index).2 := by
  cases holds : slab.get? index with
  | none =>
      rw [erase_of_vacant holds]
      refine ⟨fun value => ?_, fun isSome => absurd isSome Bool.false_ne_true, fun _ => rfl⟩
      rw [← get?_eq_some_iff, holds]
  | some value =>
      have written := slots_write (lt_size_of_get? holds) none
      refine ⟨fun other => ?_, fun _ => ?_, fun none => ?_⟩
      · rw [erase_snd, ← get?_eq_some_iff]
      · simp only [erase, holds]
        exact ⟨(written index).trans (if_pos rfl),
          fun other different => (written other).trans (if_neg different)⟩
      · rw [erase_snd, holds] at none
        contradiction

/-! ## Holding what the answers tell -/

theorem map_fst_revise (held : List (Nat × α)) (index : Nat) (change : α → α) :
    (HandleSequence.revise held index change).map Prod.fst = held.map Prod.fst := by
  rw [HandleSequence.revise, List.map_map]
  refine List.map_congr_left fun cell _ => ?_
  by_cases here : cell.1 = index
  · rw [Function.comp, if_pos here, here]
  · rw [Function.comp, if_neg here]

theorem mem_revise_self {change : α → α} {value : α} :
    (index, value) ∈ HandleSequence.revise held index change ↔
      ∃ old, (index, old) ∈ held ∧ change old = value := by
  rw [HandleSequence.revise, List.mem_map]
  constructor
  · rintro ⟨⟨slot, old⟩, isHeld, changed⟩
    by_cases here : slot = index
    · subst here
      rw [if_pos rfl] at changed
      exact ⟨old, isHeld, (Prod.mk.inj changed).2⟩
    · rw [if_neg here] at changed
      exact absurd (Prod.mk.inj changed).1 here
  · rintro ⟨old, isHeld, rfl⟩
    exact ⟨_, isHeld, if_pos rfl⟩

theorem mem_revise_of_ne {change : α → α} {other : Nat} {value : α} (different : other ≠ index) :
    (other, value) ∈ HandleSequence.revise held index change ↔ (other, value) ∈ held := by
  rw [HandleSequence.revise, List.mem_map]
  constructor
  · rintro ⟨⟨slot, old⟩, isHeld, changed⟩
    by_cases here : slot = index
    · rw [if_pos here] at changed
      exact absurd (Prod.mk.inj changed).1.symm different
    · rw [if_neg here] at changed
      exact changed ▸ isHeld
  · exact fun isHeld => ⟨_, isHeld, if_neg different⟩

theorem represents_empty : (empty : Slab α).Represents [] :=
  ⟨List.nodup_nil, by simp⟩

namespace Represents

theorem insert (represents : slab.Represents held) (wellFormed : slab.WellFormed) (value : α) :
    (slab.insert value).1.Represents (((slab.insert value).2, value) :: held) := by
  have isNew : (slab.insert value).2 ∉ held.map Prod.fst := by
    intro member
    obtain ⟨⟨_, other⟩, isHeld, rfl⟩ := List.mem_map.1 member
    rw [← represents.found, get?_insert_snd wellFormed] at isHeld
    contradiction
  refine ⟨List.nodup_cons.2 ⟨isNew, represents.distinct⟩, fun index other => ?_⟩
  rw [get?_insert wellFormed, List.mem_cons, Prod.mk.injEq, ← represents.found]
  by_cases here : index = (slab.insert value).2
  · rw [if_pos here, here, get?_insert_snd wellFormed]
    simp [eq_comm]
  · simp [here]

theorem erase (represents : slab.Represents held) (index : Nat) :
    (slab.erase index).1.Represents (without held index) := by
  refine ⟨represents.distinct.sublist (List.filter_sublist.map Prod.fst), fun other value => ?_⟩
  rw [get?_erase, without, List.mem_filter, ← represents.found]
  by_cases here : other = index
  · simp [here]
  · simp [here]

theorem revise (represents : slab.Represents held) {old : α} (holds : slab.get? index = some old)
    (change : α → α) :
    (slab.write index (some (change old))).Represents
      (HandleSequence.revise held index change) := by
  refine ⟨map_fst_revise held index change ▸ represents.distinct, fun other value => ?_⟩
  rw [get?_write (lt_size_of_get? holds)]
  by_cases here : other = index
  · rw [here, if_pos rfl, mem_revise_self]
    simp only [← represents.found, holds, Option.some.injEq, exists_eq_left']
  · rw [if_neg here, mem_revise_of_ne here, represents.found]

theorem revise_vacant (represents : slab.Represents held) (vacant : slab.get? index = none)
    (change : α → α) : HandleSequence.revise held index change = held := by
  refine revise_absent (fun member => ?_) change
  obtain ⟨⟨_, value⟩, isHeld, rfl⟩ := List.mem_map.1 member
  rw [← represents.found, vacant] at isHeld
  contradiction

end Represents

/-! ## Histories -/

/-- A slab that is well-formed and holds what the answers tell. -/
def Intact (slab : Slab α) (held : List (Nat × α)) : Prop :=
  slab.WellFormed ∧ slab.Represents held

/-- A request is served, and what its answer tells is true. Where it does not touch a handle that
is in use, the value stays there, and no other value gets the handle. -/
structure Obliges (slab : Slab α) (held : List (Nat × α)) (request : SlabRequest α)
    (next : Slab α) (answer : SlabAnswer α) : Prop where
  served : slab.serve request = .ok (next, answer)
  intact : next.Intact (holdingsAfter held request answer)
  size : request.clears = false → next.slots.size = max slab.slots.size next.occupied
  spares : ∀ {index value}, slab.get? index = some value → ¬ request.touches index →
    next.get? index = some value ∧ ∀ other, answer = .index other → other ≠ index

theorem Intact.serve (intact : slab.Intact held) (request : SlabRequest α) :
    ∃ next answer, slab.Obliges held request next answer := by
  obtain ⟨wellFormed, represents⟩ := intact
  cases request with
  | insert value =>
      have filled := get?_insert wellFormed value
      refine ⟨(slab.insert value).1, .index (slab.insert value).2, rfl,
        ⟨wellFormed.insert value, represents.insert wellFormed value⟩, fun _ => ?_, ?_⟩
      · rw [wellFormed.size_insert, occupied_insert]
      · intro index stored holds _
        -- The slot that is handed out was vacant, so it is none of those in use.
        have different : (slab.insert value).2 ≠ index := by
          rintro rfl
          rw [get?_insert_snd wellFormed] at holds
          contradiction
        refine ⟨?_, ?_⟩
        · rw [filled, if_neg different.symm, holds]
        · rintro _ ⟨⟩
          exact different
  | erase other =>
      refine ⟨(slab.erase other).1, .value (slab.erase other).2, rfl,
        ⟨wellFormed.erase other, represents.erase other⟩,
        fun _ => (wellFormed.erase other).size_of_same (size_slots_erase slab other), ?_⟩
      intro index stored holds untouched
      have different : index ≠ other := fun same => untouched same.symm
      refine ⟨?_, by simp⟩
      rw [get?_erase, if_neg different, holds]
  | revise other change =>
      cases found : slab.get? other with
      | none =>
          refine ⟨slab, .value none, by rw [Slab.serve, found], ⟨wellFormed, ?_⟩,
            fun _ => wellFormed.size_of_same rfl, ?_⟩
          · rw [holdingsAfter, represents.revise_vacant found]
            exact represents
          · exact fun holds _ => ⟨holds, by simp⟩
      | some old =>
          have written : slab.Alike (slab.write other (some (change old))) :=
            agree_write found rfl
          refine ⟨slab.write other (some (change old)), .value (some old), ?_,
            ⟨written.wellFormed wellFormed, represents.revise found change⟩,
            fun _ => (written.wellFormed wellFormed).size_of_same written.size, ?_⟩
          · simp only [Slab.serve, found, Slab.replace]
          · intro index stored holds untouched
            have different : index ≠ other := fun same => untouched same.symm
            refine ⟨?_, by simp⟩
            rw [get?_write (lt_size_of_get? found), if_neg different, holds]
  | get other =>
      exact ⟨_, _, rfl, ⟨wellFormed, represents⟩, fun _ => wellFormed.size_of_same rfl,
        fun holds _ => ⟨holds, by simp⟩⟩
  | clear =>
      exact ⟨_, _, rfl, ⟨wellFormed_empty, represents_empty⟩,
        fun clearsNot => absurd clearsNot Bool.noConfusion,
        fun _ untouched => absurd trivial untouched⟩

/-- After every history the slab holds what the answers tell. -/
theorem Intact.serveAll (requests : List (SlabRequest α)) :
    ∀ {slab : Slab α} {held : List (Nat × α)}, slab.Intact held →
      ∃ final answers, BoundedCache.serveAll Slab.serve slab requests = .ok (final, answers) ∧
        final.Intact (holdings held requests answers) := by
  induction requests with
  | nil => exact fun intact => ⟨_, [], rfl, intact⟩
  | cons request rest inductionHypothesis =>
      intro slab held intact
      obtain ⟨next, answer, obliges⟩ := intact.serve request
      obtain ⟨final, answers, others, intactFinal⟩ := inductionHypothesis obliges.intact
      exact ⟨final, answer :: answers, serveAll_cons_of_ok obliges.served others, intactFinal⟩

/-- While no request touches a handle that is in use, the value stays and no other value gets the
handle. -/
theorem Intact.lasts {index : Nat} {value : α} (requests : List (SlabRequest α)) :
    (∀ request ∈ requests, ¬ request.touches index) →
    ∀ {slab : Slab α} {held : List (Nat × α)}, slab.Intact held → slab.get? index = some value →
      ∃ final answers, BoundedCache.serveAll Slab.serve slab requests = .ok (final, answers) ∧
        final.get? index = some value ∧ ∀ other, .index other ∈ answers → other ≠ index := by
  induction requests with
  | nil => exact fun _ _ _ _ holds => ⟨_, [], rfl, holds, by simp⟩
  | cons request rest inductionHypothesis =>
      intro untouched slab held intact holds
      obtain ⟨untouchedHere, untouchedLater⟩ := List.forall_mem_cons.1 untouched
      obtain ⟨next, answer, obliges⟩ := intact.serve request
      obtain ⟨stays, different⟩ := obliges.spares holds untouchedHere
      obtain ⟨final, answers, others, staysFinally, othersDifferent⟩ :=
        inductionHypothesis untouchedLater obliges.intact stays
      refine ⟨final, answer :: answers, serveAll_cons_of_ok obliges.served others, staysFinally, ?_⟩
      intro other member
      rcases List.mem_cons.1 member with isAnswer | isLater
      · exact different other isAnswer.symm
      · exact othersDifferent other isLater

/-! ## Storage -/

/-- A slab keeps nothing but values, and is done with a request at once. -/
def storage : Storage (Slab α) (SlabRequest α) (SlabAnswer α) where
  serve := serve
  Amid _ _ _ := False
  clears := SlabRequest.clears
  held := occupied
  slots slab := slab.slots.size
  reserved := 0

theorem reuses : (storage : Storage (Slab α) _ _).Reuses fun slab => ∃ held, slab.Intact held where
  room := by
    rintro slab ⟨held, wellFormed, _⟩
    exact (Nat.zero_add _).trans_le wellFormed.occupied_le
  serves := by
    rintro slab request ⟨held, intact⟩
    obtain ⟨next, answer, obliges⟩ := intact.serve request
    refine ⟨next, answer, obliges.served, ⟨_, obliges.intact⟩, fun clearsNot => ?_, ?_⟩
    · refine .of_size ((Nat.zero_add _).trans_le intact.1.occupied_le)
        (fun _ amid => False.elim amid) ?_
      exact (obliges.size clearsNot).trans (congrArg _ (Nat.zero_add _).symm)
    · intro clears
      cases request with
      | clear =>
          cases obliges.served
          exact ⟨rfl, fun _ => id⟩
      | _ => contradiction

/-- Whatever is asked of a new slab, its free slots are the vacant ones, and there are as many
slots as were needed for the most values held at once since the last clear. A value is only ever
stored in a vacant slot, and emptying a slot changes no other. So different values that are held
have different handles, and a value stays under its handle until that is emptied or revised. -/
theorem accounts_for_slots :
    (storage : Storage (Slab α) _ _).Economical empty ∧
    ∀ past : List (SlabRequest α), ∃ slab answers,
      BoundedCache.serveAll Slab.serve empty past = .ok (slab, answers) ∧ slab.Accounted ∧
      (∀ value, slab.Stores value (slab.insert value).1 (slab.insert value).2) ∧
      (∀ index, slab.Empties index (slab.erase index).1 (slab.erase index).2) ∧
      slab.Represents (holdings [] past answers) ∧
      ∀ (later : List (SlabRequest α)) (index : Nat) (value : α), slab.get? index = some value →
        (∀ request ∈ later, ¬ request.touches index) → ∃ final others,
          BoundedCache.serveAll Slab.serve slab later = .ok (final, others) ∧
          final.get? index = some value ∧ ∀ other, .index other ∈ others → other ≠ index := by
  have fresh : (empty : Slab α).Intact [] := ⟨wellFormed_empty, represents_empty⟩
  refine ⟨reuses.economical ⟨[], fresh⟩ rfl, fun past => ?_⟩
  obtain ⟨slab, answers, run, intact⟩ := fresh.serveAll past
  exact ⟨slab, answers, run, intact.1.accounted, intact.1.stores, slab.empties, intact.2,
    fun later index value holds untouched => Intact.lasts later untouched intact holds⟩

/-- The first of two values goes and its slot is used again, while the second one stays. -/
theorem accounts_for_slots_reused_slot :
    ∃ slab answers,
      BoundedCache.serveAll Slab.serve (empty : Slab Nat) [.insert 10, .insert 20, .erase 0] =
        .ok (slab, answers) ∧
      slab.get? 1 = some 20 ∧ ∃ final others,
        BoundedCache.serveAll Slab.serve slab [.erase 0, .insert 30, .erase 5] =
          .ok (final, others) ∧
        final.get? 1 = some 20 ∧ .index 0 ∈ others ∧ .index 1 ∉ others := by
  obtain ⟨_, accounts⟩ := accounts_for_slots (α := Nat)
  obtain ⟨slab, answers, run, _, _, _, _, lasts⟩ := accounts [.insert 10, .insert 20, .erase 0]
  have filled : BoundedCache.serveAll Slab.serve (empty : Slab Nat)
      [.insert 10, .insert 20, .erase 0] =
        .ok (⟨#[none, some 20], [0], 1⟩, [.index 0, .index 1, .value (some 10)]) := rfl
  cases run.symm.trans filled
  obtain ⟨final, others, laterRun, stays, different⟩ :=
    lasts [.erase 0, .insert 30, .erase 5] 1 20 rfl (by simp [SlabRequest.touches])
  refine ⟨_, _, filled, rfl, final, others, laterRun, stays, ?_,
    fun member => different 1 member rfl⟩
  cases laterRun
  exact List.mem_cons_of_mem _ List.mem_cons_self

end Slab

end BoundedCache
