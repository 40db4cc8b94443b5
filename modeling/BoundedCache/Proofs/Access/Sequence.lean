import BoundedCache.Proofs.Access.Handles

/-!
# Handle lists as sequences

Seen from outside, a handle list is a sequence of values, each under a handle of its own, that has
a bounded length. A request names any handle: one that is held, one that was removed since, one
that was never given out, or that of a sentinel. What is done and answered depends on the sequence
alone, except that a new value may get any handle that is free. Only moving a value that is not
held is a fault, which is met before any node is changed.
-/

namespace BoundedCache

variable {α : Type}

/-! ## Faults halfway through a request -/

section InPlace

variable {ν β γ ε δ : Type}

/-- The result of steps that change nodes in place. A fault comes with the nodes as it leaves
them. -/
abbrev InPlace (ν β : Type) := Except (Fault × Slab ν) β

/-- A step on one node, which changes nothing if it meets a fault. -/
def InPlace.step (nodes : Slab ν) (step : Checked β) : InPlace ν β :=
  step.mapError fun fault => (fault, nodes)

theorem mapError_bind (change : ε → δ) (step : Except ε β) (next : β → Except ε γ) :
    (step >>= next).mapError change =
      step.mapError change >>= fun value => (next value).mapError change := by
  cases step <;> rfl

theorem InPlace.mapError_step (nodes : Slab ν) (step : Checked β) :
    (InPlace.step nodes step).mapError Prod.fst = step := by
  cases step <;> rfl

namespace LinkField

def joinInPlace (field : LinkField ν) (nodes : Slab ν) (left right : Nat) :
    InPlace ν (Slab ν) := do
  let nodes ← .step nodes (nodes.modify left (field.withNext right))
  .step nodes (nodes.modify right (field.withPrev left))

def detachInPlace (field : LinkField ν) (nodes : Slab ν) (index : Nat) : InPlace ν (Slab ν) := do
  let links := field.get (← .step nodes (nodes.fetch index))
  field.joinInPlace nodes links.prev links.next

def insertAfterInPlace (field : LinkField ν) (nodes : Slab ν) (anchor index : Nat) :
    InPlace ν (Slab ν) := do
  let follower := (field.get (← .step nodes (nodes.fetch anchor))).next
  let nodes ← field.joinInPlace nodes anchor index
  field.joinInPlace nodes index follower

theorem mapError_joinInPlace (field : LinkField ν) (nodes : Slab ν) (left right : Nat) :
    (field.joinInPlace nodes left right).mapError Prod.fst = field.join nodes left right := by
  simp only [joinInPlace, join, mapError_bind, InPlace.mapError_step]

theorem mapError_detachInPlace (field : LinkField ν) (nodes : Slab ν) (index : Nat) :
    (field.detachInPlace nodes index).mapError Prod.fst = field.detach nodes index := by
  simp only [detachInPlace, detach, mapError_bind, InPlace.mapError_step, mapError_joinInPlace]

theorem mapError_insertAfterInPlace (field : LinkField ν) (nodes : Slab ν) (anchor index : Nat) :
    (field.insertAfterInPlace nodes anchor index).mapError Prod.fst =
      field.insertAfter nodes anchor index := by
  simp only [insertAfterInPlace, insertAfter, mapError_bind, InPlace.mapError_step,
    mapError_joinInPlace]

end LinkField

/-- Moves the value under a handle to the front, in place. -/
def HandleList.bringToFrontInPlace (list : HandleList α) (handle : Nat) :
    InPlace (HandleNode α) (HandleList α) := do
  if isSentinel handle then return list
  let sentinel ← .step list.nodes (list.nodes.fetch front)
  if sentinel.links.next = handle then return list
  let nodes ← linkField.detachInPlace list.nodes handle
  return { list with nodes := ← linkField.insertAfterInPlace nodes front handle }

/-- Changing the nodes in place comes to the same, except that a fault tells more. -/
theorem HandleList.mapError_bringToFrontInPlace (list : HandleList α) (handle : Nat) :
    (list.bringToFrontInPlace handle).mapError Prod.fst = list.bringToFront handle := by
  rw [bringToFrontInPlace, bringToFront]
  split
  · rfl
  · rw [mapError_bind, InPlace.mapError_step]
    congr 1
    funext sentinel
    split
    · rfl
    · simp only [mapError_bind, LinkField.mapError_detachInPlace,
        LinkField.mapError_insertAfterInPlace, LinkField.moveAfter, bind_assoc]
      rfl

end InPlace

/-! ## Requests and answers -/

/-- What can be asked of a handle list. -/
inductive HandleRequest (α : Type) where
  | add (value : α)
  | remove (handle : Nat)
  | popBack
  | bringToFront (handle : Nat)
  | replace (handle : Nat) (value : α)
  /-- The value is changed where it is stored. -/
  | revise (handle : Nat) (change : α → α)
  | get (handle : Nat)
  | last
  | list
  | clear

/-- What a handle list answers. -/
inductive HandleAnswer (α : Type) where
  | handle (handle : Option Nat)
  | value (value : Option α)
  | values (values : List α)
  | done

namespace HandleList

/-- Serves a request. A value that is revised is the one that was there before. -/
def respond (list : HandleList α) :
    HandleRequest α → Checked (HandleList α × HandleAnswer α)
  | .add value => do
      let (list, handle) ← list.add value
      return (list, .handle handle)
  | .remove handle => do
      let (list, value) ← list.remove handle
      return (list, .value value)
  | .popBack => do
      let (list, value) ← list.popBack
      return (list, .value value)
  | .bringToFront handle => return (← list.bringToFront handle, .done)
  | .replace handle value =>
      let (list, old) := list.replace handle value
      return (list, .value old)
  | .revise handle change =>
      match list.get? handle with
      | none => return (list, .value none)
      | some value => return ((list.replace handle (change value)).1, .value (some value))
  | .get handle => return (list, .value (list.get? handle))
  | .last => return (list, .value (← list.last?))
  | .list => return (list, .values (← list.toList))
  | .clear => return (list.clear, .done)

/-- The list that a request leaves behind when it meets a fault, which only moving a value can. -/
def leftBehind (list : HandleList α) : HandleRequest α → HandleList α
  | .bringToFront handle =>
      match list.bringToFrontInPlace handle with
      | .ok list => list
      | .error (_, nodes) => { list with nodes }
  | _ => list

/-- Serves a request and tells what becomes of the list, also after a fault. -/
def attend (list : HandleList α) (request : HandleRequest α) :
    HandleList α × Checked (HandleAnswer α) :=
  match list.respond request with
  | .ok (list, answer) => (list, .ok answer)
  | .error fault => (list.leftBehind request, .error fault)

/-- Serves requests one after another, also those that come after a fault. -/
def attendAll : HandleList α → List (HandleRequest α) →
    HandleList α × List (Checked (HandleAnswer α))
  | list, [] => (list, [])
  | list, request :: rest =>
      let (list, answer) := list.attend request
      let (list, answers) := list.attendAll rest
      (list, answer :: answers)

end HandleList

/-! ## Sequences -/

namespace HandleSequence

/-- The sequence without the value under a handle. -/
def without (cells : List (Nat × α)) (handle : Nat) : List (Nat × α) :=
  cells.filter fun cell => cell.1 ≠ handle

/-- The sequence with the value under a handle changed. -/
def revise (cells : List (Nat × α)) (handle : Nat) (change : α → α) : List (Nat × α) :=
  cells.map fun cell => if cell.1 = handle then (handle, change cell.2) else cell

/-- A handle that a new value may get: that of no sentinel and of no value. -/
def Fresh (cells : List (Nat × α)) (handle : Nat) : Prop :=
  2 ≤ handle ∧ handle ∉ cells.map Prod.fst

/-- What becomes of the sequence, where `fresh` is the handle of a new value. -/
def after (capacity fresh : Nat) (cells : List (Nat × α)) : HandleRequest α → List (Nat × α)
  | .add value => if cells.length = capacity then cells else (fresh, value) :: cells
  | .remove handle => without cells handle
  | .popBack => cells.dropLast
  | .bringToFront handle =>
      ((cells.lookup handle).map fun value => (handle, value)).toList ++ without cells handle
  | .replace handle value => revise cells handle fun _ => value
  | .revise handle change => revise cells handle change
  | .get _ => cells
  | .last => cells
  | .list => cells
  | .clear => []

/-- What the sequence answers. -/
def reply (capacity fresh : Nat) (cells : List (Nat × α)) :
    HandleRequest α → Checked (HandleAnswer α)
  | .add _ => .ok (.handle (if cells.length = capacity then none else some fresh))
  | .remove handle => .ok (.value (cells.lookup handle))
  | .popBack => .ok (.value (cells.map Prod.snd).getLast?)
  | .bringToFront handle =>
      if handle < 2 ∨ handle ∈ cells.map Prod.fst then .ok .done
      else .error (.vacantSlot handle)
  | .replace handle _ => .ok (.value (cells.lookup handle))
  | .revise handle _ => .ok (.value (cells.lookup handle))
  | .get handle => .ok (.value (cells.lookup handle))
  | .last => .ok (.value (cells.map Prod.snd).getLast?)
  | .list => .ok (.values (cells.map Prod.snd))
  | .clear => .ok .done

/-- From one sequence to another by these requests, with these answers. -/
inductive History (capacity : Nat) :
    List (Nat × α) → List (HandleRequest α) → List (Checked (HandleAnswer α)) →
      List (Nat × α) → Prop where
  | nil {cells} : History capacity cells [] [] cells
  | cons {cells fresh request requests answers final} (isFresh : Fresh cells fresh)
      (others : History capacity (after capacity fresh cells request) requests answers final) :
      History capacity cells (request :: requests)
        (reply capacity fresh cells request :: answers) final

/-! ## Handles that are held and handles that are not -/

variable {before rest cells : List (Nat × α)} {handle : Nat} {value : α}

theorem lookup_absent (absent : handle ∉ cells.map Prod.fst) : cells.lookup handle = none := by
  apply List.lookup_eq_none_iff.2
  intro cell member
  rw [bne_iff_ne]
  rintro rfl
  exact absent (List.mem_map_of_mem member)

theorem without_absent (absent : handle ∉ cells.map Prod.fst) : without cells handle = cells := by
  apply List.filter_eq_self.2
  intro cell member
  rw [decide_eq_true_iff]
  rintro rfl
  exact absent (List.mem_map_of_mem member)

theorem revise_absent (absent : handle ∉ cells.map Prod.fst) (change : α → α) :
    revise cells handle change = cells := by
  have same : ∀ cell ∈ cells,
      (if cell.1 = handle then (handle, change cell.2) else cell) = cell := by
    intro cell member
    apply if_neg
    rintro rfl
    exact absent (List.mem_map_of_mem member)
  calc
    revise cells handle change = cells.map id := List.map_congr_left same
    _ = cells := List.map_id cells

theorem lookup_middle (beforeAbsent : handle ∉ before.map Prod.fst) :
    (before ++ (handle, value) :: rest).lookup handle = some value := by
  rw [List.lookup_append, lookup_absent beforeAbsent, Option.none_or, List.lookup_cons_self]

theorem without_middle (beforeAbsent : handle ∉ before.map Prod.fst)
    (restAbsent : handle ∉ rest.map Prod.fst) :
    without (before ++ (handle, value) :: rest) handle = before ++ rest := by
  have gone : without ((handle, value) :: rest) handle = without rest handle :=
    List.filter_cons_of_neg (by simp)
  calc
    without (before ++ (handle, value) :: rest) handle
      = without before handle ++ without ((handle, value) :: rest) handle := List.filter_append ..
    _ = before ++ rest := by rw [gone, without_absent beforeAbsent, without_absent restAbsent]

theorem revise_middle (beforeAbsent : handle ∉ before.map Prod.fst)
    (restAbsent : handle ∉ rest.map Prod.fst) (change : α → α) :
    revise (before ++ (handle, value) :: rest) handle change =
      before ++ (handle, change value) :: rest := by
  have changed : revise ((handle, value) :: rest) handle change =
      (handle, change value) :: revise rest handle change := by
    rw [revise, List.map_cons, if_pos rfl]
    rfl
  calc
    revise (before ++ (handle, value) :: rest) handle change
      = revise before handle change ++ revise ((handle, value) :: rest) handle change :=
        List.map_append ..
    _ = before ++ (handle, change value) :: rest := by
      rw [changed, revise_absent beforeAbsent, revise_absent restAbsent]

end HandleSequence

/-! ## Lists that hold a sequence -/

namespace HandleList

open HandleSequence

variable {list : HandleList α} {cells : List (Nat × α)} {handle fresh : Nat}

/-- A request does to the list what it does to the sequence that it holds. -/
structure Obeys (list : HandleList α) (cells : List (Nat × α)) (fresh : Nat)
    (request : HandleRequest α) : Prop where
  answers : (list.attend request).2 = reply list.capacity.val fresh cells request
  holds : (list.attend request).1.Holds (after list.capacity.val fresh cells request)
  capacity : (list.attend request).1.capacity = list.capacity

theorem obeys_of_ok {request : HandleRequest α} (next : HandleList α) (answer : HandleAnswer α)
    (step : list.respond request = .ok (next, answer))
    (answers : reply list.capacity.val fresh cells request = .ok answer)
    (holds : next.Holds (after list.capacity.val fresh cells request))
    (capacity : next.capacity = list.capacity) : list.Obeys cells fresh request := by
  have attended : list.attend request = (next, .ok answer) := by rw [attend, step]
  constructor
  · rw [attended, answers]
  · rwa [attended]
  · rw [attended, capacity]

namespace Holds

theorem isHandle_lt_size (holds : list.Holds cells) (member : handle ∈ cells.map Prod.fst) :
    2 ≤ handle ∧ handle < list.nodes.slots.size := by
  obtain ⟨⟨_, value⟩, isCell, rfl⟩ := List.mem_map.1 member
  have notSentinel := holds.isSentinel_eq_false isCell
  simp only [isSentinel, front, rear, Bool.or_eq_false_iff, beq_eq_false_iff_ne] at notSentinel
  obtain ⟨node, stored⟩ := Option.isSome_iff_exists.1 (LinkField.path_isSome holds.path member)
  exact ⟨by omega, Slab.lt_size_of_get? stored⟩

/-- The number of the slots is a handle that is not in use. -/
theorem fresh_size (holds : list.Holds cells) : Fresh cells list.nodes.slots.size := by
  obtain ⟨sentinel, stored⟩ := Option.isSome_iff_exists.1 (LinkField.path_last_isSome holds.path)
  constructor
  · exact Slab.lt_size_of_get? stored
  · intro member
    exact Nat.lt_irrefl _ (holds.isHandle_lt_size member).2

/-- The cell with a handle that is held. -/
theorem split (holds : list.Holds cells) (member : handle ∈ cells.map Prod.fst) :
    ∃ before value rest, cells = before ++ (handle, value) :: rest ∧
      handle ∉ before.map Prod.fst ∧ handle ∉ rest.map Prod.fst := by
  obtain ⟨⟨_, value⟩, isCell, rfl⟩ := List.mem_map.1 member
  obtain ⟨before, rest, rfl⟩ := List.append_of_mem isCell
  have distinct := holds.path.inner_nodup
  rw [List.map_append, List.map_cons, List.nodup_middle, List.nodup_cons, List.mem_append,
    not_or] at distinct
  exact ⟨before, value, rest, rfl, distinct.1.1, distinct.1.2⟩

/-- A handle that is not held leads to no node, unless it is that of a sentinel. -/
theorem vacant (holds : list.Holds cells) (absent : handle ∉ cells.map Prod.fst)
    (notSentinel : isSentinel handle = false) : list.nodes.get? handle = none := by
  apply Option.not_isSome_iff_eq_none.1
  intro stored
  obtain ⟨value, member⟩ := holds.mem_of_node notSentinel stored
  exact absent (List.mem_map_of_mem member)

theorem reads (holds : list.Holds cells) (handle : Nat) :
    list.get? handle = cells.lookup handle := by
  by_cases member : handle ∈ cells.map Prod.fst
  · obtain ⟨before, value, rest, rfl, beforeAbsent, _⟩ := holds.split member
    rw [lookup_middle beforeAbsent]
    exact holds.get? (List.mem_append_right before List.mem_cons_self)
  · rw [lookup_absent member, HandleList.get?]
    cases isSentinelHandle : isSentinel handle with
    | true => rfl
    | false => rw [holds.vacant member isSentinelHandle]; rfl

/-! ## One request -/

theorem obeys_add (holds : list.Holds cells) (value : α) :
    ∃ fresh, Fresh cells fresh ∧ list.Obeys cells fresh (.add value) := by
  by_cases full : cells.length = list.capacity.val
  · refine ⟨list.nodes.slots.size, holds.fresh_size, ?_⟩
    have isFull : list.isFull = true := holds.isFull_iff.2 (Nat.le_of_eq full.symm)
    have step : list.add value = .ok (list, none) := by
      rw [HandleList.add, if_pos isFull]
      rfl
    apply obeys_of_ok list (.handle none)
    · rw [respond, step]
      rfl
    · rw [reply, if_pos full]
    · rwa [after, if_pos full]
    · rfl
  · have room : cells.length < list.capacity.val := Nat.lt_of_le_of_ne holds.bounded full
    obtain ⟨nodes, handle, step, holdsNext⟩ := holds.add room value
    have isHandle := holdsNext.isHandle_lt_size List.mem_cons_self
    refine ⟨handle, ⟨isHandle.1, (List.nodup_cons.1 holdsNext.path.inner_nodup).1⟩, ?_⟩
    apply obeys_of_ok _ (.handle (some handle))
    · rw [respond, step]
      rfl
    · rw [reply, if_neg full]
    · rwa [after, if_neg full]
    · rfl

theorem obeys_remove (holds : list.Holds cells) (fresh handle : Nat) :
    list.Obeys cells fresh (.remove handle) := by
  by_cases member : handle ∈ cells.map Prod.fst
  · obtain ⟨before, value, rest, rfl, beforeAbsent, restAbsent⟩ := holds.split member
    obtain ⟨nodes, step, holdsNext⟩ := holds.remove
    apply obeys_of_ok _ (.value (some value))
    · rw [respond, step]
      rfl
    · rw [reply, lookup_middle beforeAbsent]
    · rwa [after, without_middle beforeAbsent restAbsent]
    · rfl
  · have nothing : (isSentinel handle || (list.nodes.get? handle).isNone) = true := by
      cases isSentinelHandle : isSentinel handle with
      | true => rfl
      | false => rw [holds.vacant member isSentinelHandle]; rfl
    apply obeys_of_ok list (.value none)
    · rw [respond, HandleList.remove, if_pos nothing]
      rfl
    · rw [reply, lookup_absent member]
    · rwa [after, without_absent member]
    · rfl

theorem obeys_popBack (holds : list.Holds cells) (fresh : Nat) :
    list.Obeys cells fresh .popBack := by
  rcases List.eq_nil_or_concat' cells with rfl | ⟨before, ⟨handle, value⟩, rfl⟩
  · apply obeys_of_ok list (.value none)
    · rw [respond, holds.popBack_nil]
      rfl
    · rfl
    · exact holds
    · rfl
  · obtain ⟨nodes, step, holdsNext⟩ := holds.popBack
    apply obeys_of_ok _ (.value (some value))
    · rw [respond, step]
      rfl
    · rw [reply, List.map_append, List.map_singleton, List.getLast?_concat]
    · rwa [after, List.dropLast_concat]
    · rfl

/-- The node that is to be moved is read before any node is changed. -/
theorem bringToFrontInPlace_absent (holds : list.Holds cells)
    (absent : handle ∉ cells.map Prod.fst) (notSentinel : isSentinel handle = false) :
    list.bringToFrontInPlace handle = .error (.vacantSlot handle, list.nodes) := by
  obtain ⟨sentinel, found, next⟩ := holds.path.steps.fromFirst.after
  have notFirst : sentinel.links.next ≠ handle := by
    rw [show sentinel.links.next = (cells.map Prod.fst).headD rear from next]
    intro same
    have member := headD_mem (cells.map Prod.fst) rear
    rw [same, List.mem_append, List.mem_singleton] at member
    rcases member with isCell | isRear
    · exact absent isCell
    · rw [isRear] at notSentinel
      contradiction
  have fetched : list.nodes.fetch handle = .error (.vacantSlot handle) := by
    rw [Slab.fetch, holds.vacant absent notSentinel]
  have sentinelFetched : InPlace.step list.nodes (list.nodes.fetch front) = .ok sentinel := by
    rw [Slab.fetch_eq_ok_iff.2 found]
    rfl
  rw [bringToFrontInPlace, notSentinel, if_neg Bool.false_ne_true, sentinelFetched, ok_bind,
    if_neg notFirst, LinkField.detachInPlace, fetched]
  rfl

theorem obeys_bringToFront (holds : list.Holds cells) (fresh handle : Nat) :
    list.Obeys cells fresh (.bringToFront handle) := by
  by_cases member : handle ∈ cells.map Prod.fst
  · have served : reply list.capacity.val fresh cells (.bringToFront handle) = .ok .done :=
      if_pos (Or.inr member)
    obtain ⟨before, value, rest, rfl, beforeAbsent, restAbsent⟩ := holds.split member
    obtain ⟨nodes, step, holdsNext⟩ := holds.bringToFront
    apply obeys_of_ok _ _ _ served
    · rw [after, lookup_middle beforeAbsent, without_middle beforeAbsent restAbsent]
      exact holdsNext
    · rfl
    · rw [respond, step]
      rfl
  · have same : after list.capacity.val fresh cells (.bringToFront handle) = cells := by
      rw [after, lookup_absent member, without_absent member]
      rfl
    cases isSentinelHandle : isSentinel handle with
    | true =>
        have low : handle < 2 := by
          simp only [isSentinel, front, rear, Bool.or_eq_true, beq_iff_eq] at isSentinelHandle
          omega
        apply obeys_of_ok list .done
        · rw [respond, HandleList.bringToFront, if_pos isSentinelHandle]
          rfl
        · exact if_pos (Or.inl low)
        · rwa [same]
        · rfl
    | false =>
        have high : ¬ (handle < 2 ∨ handle ∈ cells.map Prod.fst) := by
          simp only [isSentinel, front, rear, Bool.or_eq_false_iff, beq_eq_false_iff_ne]
            at isSentinelHandle
          rintro (low | isCell)
          · omega
          · exact member isCell
        have attended : list.attend (.bringToFront handle) =
            (list, .error (.vacantSlot handle)) := by
          rw [attend, respond, ← mapError_bringToFrontInPlace,
            holds.bringToFrontInPlace_absent member isSentinelHandle]
          simp only [leftBehind, holds.bringToFrontInPlace_absent member isSentinelHandle]
          rfl
        constructor
        · rw [attended, reply, if_neg high]
        · rwa [attended, same]
        · rw [attended]

theorem replace_absent (holds : list.Holds cells) (absent : handle ∉ cells.map Prod.fst)
    (value : α) : list.replace handle value = (list, none) := by
  rw [HandleList.replace]
  cases isSentinelHandle : isSentinel handle with
  | true => rfl
  | false => rw [holds.vacant absent isSentinelHandle]; rfl

theorem obeys_revise (holds : list.Holds cells) (fresh handle : Nat) (change : α → α) :
    list.Obeys cells fresh (.revise handle change) := by
  have read := holds.reads handle
  by_cases member : handle ∈ cells.map Prod.fst
  · obtain ⟨before, value, rest, rfl, beforeAbsent, restAbsent⟩ := holds.split member
    obtain ⟨_, capacity, holdsNext⟩ := holds.replace (change value)
    rw [lookup_middle beforeAbsent] at read
    apply obeys_of_ok _ (.value (some value))
    · rw [respond, read]
      rfl
    · rw [reply, lookup_middle beforeAbsent]
    · rwa [after, revise_middle beforeAbsent restAbsent]
    · exact capacity
  · rw [lookup_absent member] at read
    apply obeys_of_ok list (.value none)
    · rw [respond, read]
      rfl
    · rw [reply, lookup_absent member]
    · rwa [after, revise_absent member]
    · rfl

/-- Replacing a value is changing it in place without regard to the old one. -/
theorem respond_replace (holds : list.Holds cells) (handle : Nat) (value : α) :
    list.respond (.replace handle value) = list.respond (.revise handle fun _ => value) := by
  have read := holds.reads handle
  by_cases member : handle ∈ cells.map Prod.fst
  · obtain ⟨before, stored, rest, rfl, beforeAbsent, _⟩ := holds.split member
    obtain ⟨old, _⟩ := holds.replace value
    rw [lookup_middle beforeAbsent] at read
    simp only [respond, read, old]
  · rw [lookup_absent member] at read
    simp only [respond, read, holds.replace_absent member]

theorem obeys_replace (holds : list.Holds cells) (fresh handle : Nat) (value : α) :
    list.Obeys cells fresh (.replace handle value) := by
  have revised := holds.obeys_revise fresh handle fun _ => value
  have same :
      list.attend (.replace handle value) = list.attend (.revise handle fun _ => value) := by
    rw [attend, attend, holds.respond_replace]
    rfl
  exact ⟨same ▸ revised.answers, same ▸ revised.holds, same ▸ revised.capacity⟩

/-- Every request does to the list what it does to the sequence, with a handle that is not in use
for a new value. -/
theorem obeys (holds : list.Holds cells) (request : HandleRequest α) :
    ∃ fresh, Fresh cells fresh ∧ list.Obeys cells fresh request := by
  have unused : Fresh cells list.nodes.slots.size := holds.fresh_size
  cases request with
  | add value => exact holds.obeys_add value
  | remove handle => exact ⟨_, unused, holds.obeys_remove _ handle⟩
  | popBack => exact ⟨_, unused, holds.obeys_popBack _⟩
  | bringToFront handle => exact ⟨_, unused, holds.obeys_bringToFront _ handle⟩
  | replace handle value => exact ⟨_, unused, holds.obeys_replace _ handle value⟩
  | revise handle change => exact ⟨_, unused, holds.obeys_revise _ handle change⟩
  | get handle =>
      refine ⟨_, unused, obeys_of_ok list _ rfl ?_ holds rfl⟩
      rw [reply, holds.reads]
  | last =>
      refine ⟨_, unused, obeys_of_ok list _ ?_ rfl holds rfl⟩
      rw [respond, holds.last?_eq]
      rfl
  | list =>
      refine ⟨_, unused, obeys_of_ok list _ ?_ rfl holds rfl⟩
      rw [respond, holds.toList_eq]
      rfl
  | clear => exact ⟨_, unused, obeys_of_ok _ _ rfl rfl (holds_empty _) rfl⟩

/-! ## Histories -/

theorem attendAll (requests : List (HandleRequest α)) :
    ∀ {list : HandleList α} {cells : List (Nat × α)}, list.Holds cells →
      ∃ final, History list.capacity.val cells requests (list.attendAll requests).2 final ∧
        (list.attendAll requests).1.Holds final ∧
        (list.attendAll requests).1.capacity = list.capacity := by
  induction requests with
  | nil =>
      intro list cells holds
      exact ⟨cells, .nil, holds, rfl⟩
  | cons request requests inductionHypothesis =>
      intro list cells holds
      obtain ⟨fresh, isFresh, obeys⟩ := holds.obeys request
      obtain ⟨final, history, holdsFinal, capacity⟩ := inductionHypothesis obeys.holds
      rw [obeys.capacity] at history
      refine ⟨final, ?_, holdsFinal, capacity.trans obeys.capacity⟩
      have cons := History.cons isFresh history
      rwa [← obeys.answers] at cons

end Holds

/-! ## What is seen of a list -/

/-- The list is seen to hold this sequence, front first. -/
structure Represents (list : HandleList α) (capacity : Capacity) (cells : List (Nat × α)) :
    Prop where
  bound : list.capacity = capacity
  /-- No two values have one handle, and no value has that of a sentinel. -/
  distinct : (cells.map Prod.fst).Nodup
  handles : ∀ handle ∈ cells.map Prod.fst, 2 ≤ handle
  reads : ∀ handle, list.get? handle = cells.lookup handle
  length : list.length = cells.length
  bounded : list.length ≤ capacity.val
  full : list.isFull = true ↔ list.length = capacity.val
  tells : list.toList = .ok (cells.map Prod.snd)
  /-- The walk from front to back ends by itself after the last value. -/
  ends : ∀ steps, cells.length ≤ steps →
    valuesFrom list.nodes steps ((cells.map Prod.fst).headD rear) = .ok (cells.map Prod.snd)
  /-- From the one sentinel through all values to the other, two neighbours name each other. -/
  linked : Steps (linkField.Adjacent list.nodes) front (cells.map Prod.fst) rear
  stored : ∀ handle, (list.nodes.get? handle).isSome ↔
    handle = front ∨ handle = rear ∨ handle ∈ cells.map Prod.fst

theorem Holds.represents (holds : list.Holds cells) : list.Represents list.capacity cells where
  bound := rfl
  distinct := holds.path.inner_nodup
  handles _ member := (holds.isHandle_lt_size member).1
  reads := holds.reads
  length := holds.length
  bounded := holds.length.trans_le holds.bounded
  full := by
    rw [isFull, beq_iff_eq]
  tells := holds.toList_eq
  ends _ enough := valuesFrom_eq holds.path.steps holds.held holds.path.last_notMem enough
  linked := holds.path.steps
  stored handle := by
    constructor
    · intro stored
      by_contra absent
      rw [not_or, not_or] at absent
      have notSentinel : isSentinel handle = false := by simp [isSentinel, absent.1, absent.2.1]
      rw [holds.vacant absent.2.2 notSentinel] at stored
      contradiction
    · rintro (rfl | rfl | member)
      · exact LinkField.path_first_isSome holds.path
      · exact LinkField.path_last_isSome holds.path
      · exact LinkField.path_isSome holds.path member

/-- A list serves every history as a sequence that it then represents. -/
theorem acts_as_sequence (capacity : Capacity) (requests : List (HandleRequest α)) :
    ∃ cells, History capacity.val [] requests ((empty capacity).attendAll requests).2 cells ∧
      ((empty capacity).attendAll requests).1.Represents capacity cells := by
  obtain ⟨cells, history, holds, sameCapacity⟩ := (holds_empty capacity).attendAll requests
  have represents := holds.represents
  rw [sameCapacity] at represents
  exact ⟨cells, history, represents⟩

/-- A handle that is given out again leads to the new value, and requests are served after a fault
as before. -/
example : ((empty ⟨2, by decide⟩ : HandleList Nat).attendAll
    [ .add 10, .remove 2, .get 2, .add 20, .get 2, .bringToFront 9, .add 30, .bringToFront 2,
      .add 40, .list, .popBack, .remove 3 ]).2 =
    [ .ok (.handle (some 2)), .ok (.value (some 10)), .ok (.value none), .ok (.handle (some 2)),
      .ok (.value (some 20)), .error (.vacantSlot 9), .ok (.handle (some 3)), .ok .done,
      .ok (.handle none), .ok (.values [20, 30]), .ok (.value (some 30)), .ok (.value none) ] := by
  cbv

end HandleList

end BoundedCache
