import BoundedCache.Proofs.Checked
import Mathlib.Data.List.Basic
import Mathlib.Order.Bounds.Basic

/-!
# Storage that is used again

A system that keeps its entries in slots and fills emptied slots first has as many slots as it
needed for the most entries that it held at once. To tell how many these were, the states amid a
request count as well: a cache may hold one entry too many before it evicts one. What single
requests do to the slots, whole histories do.
-/

namespace BoundedCache

/-- A system that keeps entries in slots. -/
structure Storage (σ ρ β : Type) where
  serve : σ → ρ → Checked (σ × β)
  /-- The system passes through the state before it is done with the request. -/
  Amid : σ → ρ → σ → Prop
  /-- Whether the request drops all entries together with their slots. -/
  clears : ρ → Bool
  /-- The number of entries. -/
  held : σ → Nat
  /-- The number of slots, filled or not. -/
  slots : σ → Nat
  /-- The number of slots that are filled with something else than entries. -/
  reserved : Nat

namespace Storage

variable {σ ρ β : Type} (storage : Storage σ ρ β)

/-- The number of slots that a state has to have. -/
def needs (state : σ) : Nat :=
  storage.reserved + storage.held state

/-! ## States that are passed through -/

/-- The states that the system passes through while it serves requests: the one it begins with,
those after a request, and those amid one. -/
inductive Passes : σ → List ρ → σ → Prop where
  | start {state : σ} {requests : List ρ} : Passes state requests state
  | amid {state passed : σ} {request : ρ} {rest : List ρ}
      (inside : storage.Amid state request passed) : Passes state (request :: rest) passed
  | later {state next passed : σ} {request : ρ} {rest : List ρ} {answer : β}
      (served : storage.serve state request = .ok (next, answer))
      (passes : Passes next rest passed) : Passes state (request :: rest) passed

/-- The states of a single request. -/
def During (state : σ) (request : ρ) (next passed : σ) : Prop :=
  passed = state ∨ storage.Amid state request passed ∨ passed = next

/-- The most entries that the system holds at once while it serves the requests. -/
def IsPeak (state : σ) (requests : List ρ) (peak : Nat) : Prop :=
  IsGreatest {count | ∃ passed, storage.Passes state requests passed ∧
    storage.held passed = count} peak

variable {storage} {state next passed before middle after : σ} {request : ρ} {rest : List ρ}
  {answer : β}

theorem passes_nil_iff : storage.Passes state [] passed ↔ passed = state := by
  constructor
  · rintro (_ | _)
    rfl
  · rintro rfl
    exact .start

theorem passes_cons_iff (served : storage.serve state request = .ok (next, answer)) :
    storage.Passes state (request :: rest) passed ↔
      storage.During state request next passed ∨ storage.Passes next rest passed := by
  constructor
  · intro passes
    cases passes with
    | start => exact .inl (.inl rfl)
    | amid inside => exact .inl (.inr (.inl inside))
    | later servedSame passes =>
        cases served.symm.trans servedSame
        exact .inr passes
  · rintro ((rfl | inside | rfl) | passes)
    · exact .start
    · exact .amid inside
    · exact .later served .start
    · exact .later served passes

/-! ## Growing -/

variable (storage) in
/-- What becomes of the slots while the system passes through some states: all of these have room
for their entries, no slot is given up, and there are more slots in the end only if some state
needed them. -/
structure Grows (passed : σ → Prop) (before after : σ) : Prop where
  room : ∀ state, passed state → storage.needs state ≤ storage.slots state
  kept : ∀ state, passed state → storage.slots state ≤ storage.slots after
  more : storage.slots before ≤ storage.slots after
  needed : storage.slots after = storage.slots before ∨
    ∃ state, passed state ∧ storage.slots after = storage.needs state

namespace Grows

theorem refl {passed : σ → Prop} (only : ∀ other, passed other → other = state)
    (room : storage.needs state ≤ storage.slots state) :
    storage.Grows passed state state where
  room other isPassed := only other isPassed ▸ room
  kept other isPassed := only other isPassed ▸ Nat.le_refl _
  more := Nat.le_refl _
  needed := .inl rfl

theorem trans {first second both : σ → Prop} (earlier : storage.Grows first before middle)
    (later : storage.Grows second middle after)
    (split : ∀ state, both state ↔ first state ∨ second state) :
    storage.Grows both before after where
  room state isPassed := ((split state).1 isPassed).elim (earlier.room state) (later.room state)
  kept state isPassed :=
    ((split state).1 isPassed).elim (fun isFirst => (earlier.kept state isFirst).trans later.more)
      (later.kept state)
  more := earlier.more.trans later.more
  needed := by
    rcases later.needed with sameLater | ⟨state, isSecond, needed⟩
    · rcases earlier.needed with same | ⟨state, isFirst, needed⟩
      · exact .inl (sameLater.trans same)
      · exact .inr ⟨state, (split state).2 (.inl isFirst), sameLater.trans needed⟩
    · exact .inr ⟨state, (split state).2 (.inr isSecond), needed⟩

/-- A request grows the slots if one of the states after it or amid it needs all that are made, and
the states amid it have room and no more slots than there are in the end. -/
theorem of_highest {highest : σ} (isPassed : storage.Amid state request highest ∨ highest = next)
    (roomBefore : storage.needs state ≤ storage.slots state)
    (roomAfter : storage.needs next ≤ storage.slots next)
    (amid : ∀ passed, storage.Amid state request passed →
      storage.needs passed ≤ storage.slots passed ∧ storage.slots passed ≤ storage.slots next)
    (size : storage.slots next = max (storage.slots state) (storage.needs highest)) :
    storage.Grows (storage.During state request next) state next where
  room := by
    rintro passed (rfl | inside | rfl)
    · exact roomBefore
    · exact (amid passed inside).1
    · exact roomAfter
  kept := by
    rintro passed (rfl | inside | rfl)
    · exact size ▸ Nat.le_max_left _ _
    · exact (amid passed inside).2
    · exact Nat.le_refl _
  more := size ▸ Nat.le_max_left _ _
  needed := by
    rcases Nat.le_total (storage.slots state) (storage.needs highest) with short | enough
    · exact .inr ⟨highest, .inr isPassed, size.trans (Nat.max_eq_right short)⟩
    · exact .inl (size.trans (Nat.max_eq_left enough))

/-- The state after a request may be the one that needs all slots. -/
theorem of_size (roomBefore : storage.needs state ≤ storage.slots state)
    (amid : ∀ passed, storage.Amid state request passed →
      storage.needs passed ≤ storage.slots passed ∧ storage.slots passed ≤ storage.slots next)
    (size : storage.slots next = max (storage.slots state) (storage.needs next)) :
    storage.Grows (storage.During state request next) state next :=
  .of_highest (.inr rfl) roomBefore (size ▸ Nat.le_max_right _ _) amid size

/-- No slot is made by a request that is done at once and leaves as many. -/
theorem of_same (roomBefore : storage.needs state ≤ storage.slots state)
    (roomAfter : storage.needs next ≤ storage.slots next)
    (same : storage.slots next = storage.slots state)
    (atOnce : ∀ passed, ¬ storage.Amid state request passed) :
    storage.Grows (storage.During state request next) state next :=
  .of_size roomBefore (fun passed amid => absurd amid (atOnce passed))
    (same.trans (Nat.max_eq_left (same ▸ roomAfter)).symm)

end Grows

/-! ## Single requests -/

variable (storage) in
/-- A request is served and keeps what was kept. Either it grows the slots, or it clears, which
leaves no slot that is not needed. -/
structure Serves (Kept : σ → Prop) (state : σ) (request : ρ) (next : σ) (answer : β) : Prop where
  served : storage.serve state request = .ok (next, answer)
  kept : Kept next
  grows : storage.clears request = false →
    storage.Grows (storage.During state request next) state next
  cleared : storage.clears request = true →
    storage.slots next = storage.needs next ∧
      ∀ passed, ¬ storage.Amid state request passed

variable (storage) in
/-- Every request to a state with the property is served so, and such a state has room for its
entries. -/
structure Reuses (Kept : σ → Prop) : Prop where
  room : ∀ {state}, Kept state → storage.needs state ≤ storage.slots state
  serves : ∀ {state} (request : ρ), Kept state →
    ∃ next answer, storage.Serves Kept state request next answer

variable (storage) in
/-- States with the property, and those amid requests to them, do not need more slots than this. -/
def Bounded (Kept : σ → Prop) (bound : Nat) : Prop :=
  ∀ {state}, Kept state → storage.needs state ≤ bound ∧
    ∀ request passed, storage.Amid state request passed → storage.needs passed ≤ bound

/-! ## Histories -/

variable (storage) in
/-- From the fresh state on, slots are used again. Counted from the start or from the last clear,
there are as many as were needed for the most entries held at once. And while no more entries are
held than there is room for, no slot is made. -/
structure Economical (fresh : σ) : Prop where
  peak : ∀ earlier recent : List ρ, earlier.getLast?.all storage.clears = true →
    (∀ request ∈ recent, storage.clears request = false) →
    ∃ start state answers others peak, serveAll storage.serve fresh earlier = .ok (start, answers) ∧
      serveAll storage.serve start recent = .ok (state, others) ∧
      storage.IsPeak start recent peak ∧ storage.slots state = storage.reserved + peak
  steady : ∀ past later : List ρ, (∀ request ∈ later, storage.clears request = false) →
    ∃ state final answers others, serveAll storage.serve fresh past = .ok (state, answers) ∧
      serveAll storage.serve state later = .ok (final, others) ∧
      ((∀ passed, storage.Passes state later passed →
        storage.needs passed ≤ storage.slots state) →
        storage.slots final = storage.slots state)

variable (storage) in
/-- No state that is passed through has more slots than this. -/
def Within (fresh : σ) (bound : Nat) : Prop :=
  ∀ past passed, storage.Passes fresh past passed → storage.slots passed ≤ bound

namespace Reuses

variable {Kept : σ → Prop} {fresh : σ}

theorem exists_run (reuses : storage.Reuses Kept) (requests : List ρ) (kept : Kept state) :
    ∃ final answers, serveAll storage.serve state requests = .ok (final, answers) ∧ Kept final :=
  serveAll_keeps (fun request keptHere =>
    (reuses.serves request keptHere).imp fun _ ⟨answer, serves⟩ =>
      ⟨answer, serves.served, serves.kept⟩) requests kept

/-- A history without a clear grows the slots as its requests do. -/
theorem exists_growth (reuses : storage.Reuses Kept) (requests : List ρ) :
    (∀ request ∈ requests, storage.clears request = false) → ∀ {state}, Kept state →
      ∃ final answers, serveAll storage.serve state requests = .ok (final, answers) ∧
        Kept final ∧ storage.Grows (storage.Passes state requests) state final := by
  induction requests with
  | nil =>
      intro _ state kept
      exact ⟨state, [], rfl, kept, .refl (fun _ => passes_nil_iff.1) (reuses.room kept)⟩
  | cons request rest inductionHypothesis =>
      intro noClear state kept
      obtain ⟨clearsNot, noClearLater⟩ := List.forall_mem_cons.1 noClear
      obtain ⟨next, answer, serves⟩ := reuses.serves request kept
      obtain ⟨final, answers, others, keptFinal, grows⟩ :=
        inductionHypothesis noClearLater serves.kept
      exact ⟨final, answer :: answers, serveAll_cons_of_ok serves.served others, keptFinal,
        (serves.grows clearsNot).trans grows fun _ => passes_cons_iff serves.served⟩

/-- A history that is empty or ends with a clear leaves no slot that is not needed. -/
theorem exists_start (reuses : storage.Reuses Kept) (kept : Kept fresh)
    (tight : storage.slots fresh = storage.needs fresh) {earlier : List ρ}
    (ends : earlier.getLast?.all storage.clears = true) :
    ∃ start answers, serveAll storage.serve fresh earlier = .ok (start, answers) ∧ Kept start ∧
      storage.slots start = storage.needs start := by
  rcases List.eq_nil_or_concat' earlier with rfl | ⟨before, last, rfl⟩
  · exact ⟨fresh, [], rfl, kept, tight⟩
  · rw [List.getLast?_concat, Option.all_some] at ends
    obtain ⟨middle, answers, run, keptMiddle⟩ := reuses.exists_run before kept
    obtain ⟨start, answer, serves⟩ := reuses.serves last keptMiddle
    exact ⟨start, _, serveAll_append run (serveAll_cons_of_ok serves.served rfl), serves.kept,
      (serves.cleared ends).1⟩

theorem economical (reuses : storage.Reuses Kept) (kept : Kept fresh)
    (tight : storage.slots fresh = storage.needs fresh) : storage.Economical fresh where
  peak := by
    intro earlier recent ends noClear
    obtain ⟨start, answers, run, keptStart, tightStart⟩ := reuses.exists_start kept tight ends
    obtain ⟨state, others, recentRun, _, grows⟩ := reuses.exists_growth recent noClear keptStart
    -- The last slot was made for the peak. If none was made, the start had as many entries.
    have attained : ∃ passed, storage.Passes start recent passed ∧
        storage.slots state = storage.needs passed :=
      grows.needed.elim (fun same => ⟨start, .start, same.trans tightStart⟩) id
    obtain ⟨highest, passes, exact⟩ := attained
    refine ⟨start, state, answers, others, storage.held highest, run, recentRun,
      ⟨⟨highest, passes, rfl⟩, ?_⟩, exact⟩
    rintro count ⟨passed, passesToo, rfl⟩
    have room := (grows.room passed passesToo).trans (grows.kept passed passesToo)
    rw [exact] at room
    exact Nat.le_of_add_le_add_left room
  steady := by
    intro past later noClear
    obtain ⟨state, answers, run, keptState⟩ := reuses.exists_run past kept
    obtain ⟨final, others, laterRun, _, grows⟩ := reuses.exists_growth later noClear keptState
    refine ⟨state, final, answers, others, run, laterRun, fun fits => ?_⟩
    rcases grows.needed with same | ⟨passed, passes, exact⟩
    · exact same
    · have room := fits passed passes
      have more := grows.more
      omega

theorem slots_le_of_serves {bound : Nat} (bounded : storage.Bounded Kept bound)
    (kept : Kept state) (serves : storage.Serves Kept state request next answer)
    (small : storage.slots state ≤ bound) : storage.slots next ≤ bound := by
  cases clearing : storage.clears request with
  | true => exact (serves.cleared clearing).1.trans_le (bounded serves.kept).1
  | false =>
      rcases (serves.grows clearing).needed with same | ⟨highest, rfl | amid | rfl, exact⟩
      · exact same.trans_le small
      · exact exact.trans_le (bounded kept).1
      · exact exact.trans_le ((bounded kept).2 request highest amid)
      · exact exact.trans_le (bounded serves.kept).1

/-- If no state that is passed through needs too many slots, then none has too many. -/
theorem within (reuses : storage.Reuses Kept) {bound : Nat} (bounded : storage.Bounded Kept bound)
    (kept : Kept fresh) (small : storage.slots fresh ≤ bound) : storage.Within fresh bound := by
  intro past passed passes
  induction passes with
  | start => exact small
  | @amid state passed request _ inside =>
      obtain ⟨next, answer, serves⟩ := reuses.serves request kept
      cases clearing : storage.clears request with
      | true => exact absurd inside ((serves.cleared clearing).2 passed)
      | false =>
          exact ((serves.grows clearing).kept passed (.inr (.inl inside))).trans
            (slots_le_of_serves bounded kept serves small)
  | @later state next passed request rest answer served passes inductionHypothesis =>
      obtain ⟨same, sameAnswer, serves⟩ := reuses.serves request kept
      cases served.symm.trans serves.served
      exact inductionHypothesis serves.kept (slots_le_of_serves bounded kept serves small)

end Reuses

end Storage

end BoundedCache
