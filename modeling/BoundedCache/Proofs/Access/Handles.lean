import BoundedCache.HandleList
import BoundedCache.Proofs.Links.Ring

/-!
# What a handle list holds

A handle list in use holds a list of cells, each a value with its handle, from front to back. The
links lead from the one sentinel through these handles to the other. Every operation succeeds on
the handles that are held, and leaves the cells it names.
-/

namespace BoundedCache.HandleList

variable {α : Type}

/-- The values of the list from front to back, each with its handle. -/
structure Holds (list : HandleList α) (cells : List (Nat × α)) : Prop where
  wellFormed : list.nodes.WellFormed
  path : Path (linkField.Adjacent list.nodes) front (cells.map Prod.fst) rear
  held : ∀ cell ∈ cells, (list.nodes.get? cell.1).map HandleNode.value = some (some cell.2)
  occupied : list.nodes.occupied = cells.length + 2
  bounded : cells.length ≤ list.capacity.val

theorem holds_empty (capacity : Capacity) : (empty capacity : HandleList α).Holds [] where
  wellFormed := Slab.wellFormed_ofArray _
  path := by
    have sentinel : ∀ index < 2, (empty capacity : HandleList α).nodes.get? index =
        some ⟨none, ⟨front, rear⟩⟩ := by
      intro index inBounds
      rw [empty, Slab.get?_ofArray]
      match index, inBounds with
      | 0, _ => rfl
      | 1, _ => rfl
    have neighbours : linkField.Adjacent (empty capacity : HandleList α).nodes front rear :=
      ⟨⟨_, sentinel front (by decide), rfl⟩, ⟨_, sentinel rear (by decide), rfl⟩⟩
    exact ⟨neighbours, by simp, by simp⟩
  held := by simp
  occupied := rfl
  bounded := Nat.zero_le _

namespace Holds

variable {list : HandleList α} {cells before after : List (Nat × α)} {handle : Nat} {value : α}

/-! ## Reading -/

theorem length (holds : list.Holds cells) : list.length = cells.length := by
  rw [HandleList.length, holds.occupied, Nat.add_sub_cancel]

theorem isFull_iff (holds : list.Holds cells) :
    list.isFull = true ↔ list.capacity.val ≤ cells.length := by
  have bounded := holds.bounded
  rw [isFull, holds.length, beq_iff_eq]
  omega

theorem isSentinel_eq_false (holds : list.Holds cells) (member : (handle, value) ∈ cells) :
    isSentinel handle = false := by
  have isHandle : handle ∈ cells.map Prod.fst := List.mem_map_of_mem member
  have notFront : handle ≠ front := fun same => holds.path.first_notMem (same ▸ isHandle)
  have notRear : handle ≠ rear := fun same => holds.path.last_notMem (same ▸ isHandle)
  simp [isSentinel, notFront, notRear]

theorem node_of_mem (holds : list.Holds cells) (member : (handle, value) ∈ cells) :
    ∃ node, list.nodes.get? handle = some node ∧ node.value = some value :=
  Option.map_eq_some_iff.1 (holds.held _ member)

theorem get? (holds : list.Holds cells) (member : (handle, value) ∈ cells) :
    list.get? handle = some value := by
  obtain ⟨node, found, isValue⟩ := holds.node_of_mem member
  simp [HandleList.get?, holds.isSentinel_eq_false member, found, isValue]

/-- The sentinel in the back names the last handle, or the other sentinel. -/
theorem rear_prev (holds : list.Holds cells) :
    ∃ sentinel, list.nodes.get? rear = some sentinel ∧
      sentinel.links.prev = (cells.map Prod.fst).getLastD front :=
  holds.path.steps.toLast.before

theorem last?_eq (holds : list.Holds cells) :
    list.last? = .ok (cells.map Prod.snd).getLast? := by
  obtain ⟨sentinel, found, prev⟩ := holds.rear_prev
  rw [HandleList.last?, Slab.fetch_eq_ok_iff.2 found, ok_bind, prev]
  rcases List.eq_nil_or_concat' cells with rfl | ⟨before, ⟨handle, value⟩, rfl⟩
  · rfl
  · have isLast := holds.get? (List.mem_append_right before (List.mem_singleton_self _))
    rw [List.map_append, List.map_append, List.map_singleton, List.map_singleton,
      List.getLastD_concat, List.getLast?_concat, isLast]
    rfl

theorem valuesFrom_eq {nodes : Slab (HandleNode α)} {first : Nat}
    (steps : Steps (linkField.Adjacent nodes) first (cells.map Prod.fst) rear)
    (held : ∀ cell ∈ cells, (nodes.get? cell.1).map HandleNode.value = some (some cell.2))
    (absent : rear ∉ cells.map Prod.fst) {fuel : Nat} (enough : cells.length ≤ fuel) :
    valuesFrom nodes fuel ((cells.map Prod.fst).headD rear) = .ok (cells.map Prod.snd) := by
  induction cells generalizing first fuel with
  | nil => cases fuel <;> simp [valuesFrom]
  | cons cell rest inductionHypothesis =>
      obtain ⟨steps, heldHere, heldRest⟩ := And.intro steps.2 (List.forall_mem_cons.1 held)
      rw [List.map_cons, List.mem_cons, not_or] at absent
      obtain ⟨fuel, rfl⟩ := Nat.exists_eq_add_of_le' (Nat.lt_of_lt_of_le Nat.zero_lt_one
        (Nat.le_trans (Nat.le_add_left 1 rest.length) enough))
      obtain ⟨node, found, isValue⟩ := Option.map_eq_some_iff.1 heldHere
      obtain ⟨same, sameFound, next⟩ := steps.fromFirst.after
      rw [found] at sameFound
      cases sameFound
      have values := inductionHypothesis steps heldRest absent.2 (Nat.le_of_succ_le_succ enough)
      rw [← show node.links.next = (rest.map Prod.fst).headD rear from next] at values
      rw [List.map_cons, List.headD_cons, valuesFrom, if_neg (Ne.symm absent.1),
        Slab.fetch_eq_ok_iff.2 found, ok_bind, isValue]
      simp only [values, ok_bind, pure_eq_ok, List.map_cons]

theorem toList_eq (holds : list.Holds cells) : list.toList = .ok (cells.map Prod.snd) := by
  obtain ⟨sentinel, found, next⟩ := holds.path.steps.fromFirst.after
  have enough : cells.length ≤ list.nodes.slots.size := by
    have occupied := holds.occupied
    have counted := holds.wellFormed.counted
    omega
  rw [HandleList.toList, Slab.fetch_eq_ok_iff.2 found, ok_bind,
    show sentinel.links.next = (cells.map Prod.fst).headD rear from next]
  exact valuesFrom_eq holds.path.steps holds.held holds.path.last_notMem enough

/-- Beside the sentinels, only held handles have a node. -/
theorem mem_of_node (holds : list.Holds cells) (notSentinel : isSentinel handle = false)
    (stored : (list.nodes.get? handle).isSome) : ∃ value, (handle, value) ∈ cells := by
  have distinct : (front :: rear :: cells.map Prod.fst).Nodup := by
    refine List.nodup_cons.2 ⟨?_, List.nodup_cons.2 ⟨holds.path.last_notMem,
      holds.path.inner_nodup⟩⟩
    rw [List.mem_cons, not_or]
    exact ⟨by decide, holds.path.first_notMem⟩
  have filled : ∀ index ∈ front :: rear :: cells.map Prod.fst,
      (list.nodes.get? index).isSome := by
    refine List.forall_mem_cons.2 ⟨LinkField.path_first_isSome holds.path,
      List.forall_mem_cons.2 ⟨LinkField.path_last_isSome holds.path, fun index member => ?_⟩⟩
    exact LinkField.path_isSome holds.path member
  have member := holds.wellFormed.mem_of_isSome distinct filled (by simp [holds.occupied]) stored
  simp only [isSentinel, Bool.or_eq_false_iff, beq_eq_false_iff_ne] at notSentinel
  rw [List.mem_cons, List.mem_cons] at member
  obtain ⟨cell, inCells, rfl⟩ :=
    List.mem_map.1 ((member.resolve_left notSentinel.1).resolve_left notSentinel.2)
  exact ⟨cell.2, inCells⟩

theorem handle_ne (holds : list.Holds (before ++ (handle, value) :: after)) :
    ∀ cell ∈ before ++ after, cell.1 ≠ handle := by
  have distinct := holds.path.inner_nodup
  rw [List.map_append, List.map_cons, List.nodup_middle, List.nodup_cons,
    ← List.map_append] at distinct
  rintro cell member rfl
  exact distinct.1 (List.mem_map.2 ⟨cell, member, rfl⟩)

/-- The same cells in another order, after the links were changed. -/
theorem relink {others : List (Nat × α)} (holds : list.Holds cells) {nodes : Slab (HandleNode α)}
    {touched : List Nat} (rewires : linkField.Rewires touched list.nodes nodes)
    (path : Path (linkField.Adjacent nodes) front (others.map Prod.fst) rear)
    (same : others.Perm cells) : ({ list with nodes } : HandleList α).Holds others where
  wellFormed := rewires.wellFormed holds.wellFormed
  path := path
  held cell member :=
    ((rewires.agree HandleNode.value fun _ _ => rfl).seen cell.1).trans
      (holds.held cell (same.mem_iff.1 member))
  occupied := by
    rw [same.length_eq, ← holds.occupied]
    exact (rewires.agree HandleNode.value fun _ _ => rfl).occupied
  bounded := same.length_eq ▸ holds.bounded

/-! ## Adding -/

theorem add (holds : list.Holds cells) (room : cells.length < list.capacity.val) (value : α) :
    ∃ nodes handle, list.add value = .ok ({ list with nodes }, some handle) ∧
      ({ list with nodes } : HandleList α).Holds ((handle, value) :: cells) := by
  let inserted := list.nodes.insert ⟨some value, ⟨front, front⟩⟩
  have vacant : list.nodes.get? inserted.2 = none := Slab.get?_insert_snd holds.wellFormed _
  have filled : ∀ other, inserted.1.get? other =
      if other = inserted.2 then some ⟨some value, ⟨front, front⟩⟩ else list.nodes.get? other :=
    Slab.get?_insert holds.wellFormed _
  have stored : ∀ {other}, (list.nodes.get? other).isSome → inserted.2 ≠ other := by
    intro other isStored same
    rw [← same, vacant] at isStored
    contradiction
  have fresh : inserted.2 ∉ front :: cells.map Prod.fst ++ [rear] := by
    refine notMem_ends (stored (LinkField.path_first_isSome holds.path)) ?_
      (stored (LinkField.path_last_isSome holds.path))
    intro member
    exact stored (LinkField.path_isSome holds.path member) rfl
  have newHeld : (inserted.1.get? inserted.2).isSome := by simp [filled]
  obtain ⟨nodes, step, path, rewires⟩ :=
    LinkField.insertAfter_spec (LinkField.path_insert holds.wellFormed _ holds.path) newHeld fresh
  have values := rewires.agree HandleNode.value fun _ _ => rfl
  refine ⟨nodes, inserted.2, ?_, ?_⟩
  · have notFull : list.isFull = false := by
      rw [← Bool.not_eq_true, holds.isFull_iff]
      exact Nat.not_le_of_lt room
    simp only [HandleList.add, notFull, Bool.false_eq_true, if_false]
    simp only [inserted] at step
    rw [step]
    rfl
  · refine
      { wellFormed := rewires.wellFormed (holds.wellFormed.insert _)
        path := path
        held := List.forall_mem_cons.2 ⟨?_, fun cell member => ?_⟩
        occupied := ?_
        bounded := room }
    · refine (values.seen inserted.2).trans ?_
      rw [filled, if_pos rfl]
      rfl
    · refine (values.seen cell.1).trans ?_
      have isHandle : cell.1 ∈ cells.map Prod.fst := List.mem_map_of_mem member
      have different : cell.1 ≠ inserted.2 :=
        (stored (LinkField.path_isSome holds.path isHandle)).symm
      rw [filled, if_neg different]
      exact holds.held cell member
    · refine values.occupied.trans ((Slab.occupied_insert _ _).trans ?_)
      rw [holds.occupied, List.length_cons]

/-! ## Removing -/

theorem remove (holds : list.Holds (before ++ (handle, value) :: after)) :
    ∃ nodes, list.remove handle = .ok ({ list with nodes }, some value) ∧
      ({ list with nodes } : HandleList α).Holds (before ++ after) := by
  have member : (handle, value) ∈ before ++ (handle, value) :: after := by simp
  have path := holds.path
  rw [List.map_append, List.map_cons] at path
  obtain ⟨node, found, isValue⟩ := holds.node_of_mem member
  obtain ⟨detached, step, shorter, rewires⟩ := LinkField.detach_spec path
  rw [← List.map_append] at shorter
  have values := rewires.agree HandleNode.value fun _ _ => rfl
  have seen := (values.seen handle).trans (holds.held _ member)
  obtain ⟨last, lastFound, lastValue⟩ := Option.map_eq_some_iff.1 seen
  have erased := Slab.get?_erase detached handle
  have notSentinel := holds.isSentinel_eq_false member
  refine ⟨(detached.erase handle).1, ?_, ?_⟩
  · have removed : (detached.erase handle).2.bind HandleNode.value = some value := by
      rw [Slab.erase_snd, lastFound]
      exact lastValue
    simp only [HandleList.remove, notSentinel, found, Option.isNone_some, Bool.or_self,
      Bool.false_eq_true, if_false, step, ok_bind, removed, pure_eq_ok]
  · have elsewhere := holds.handle_ne
    refine
      { wellFormed := (rewires.wellFormed holds.wellFormed).erase handle
        path := LinkField.path_erase shorter ?_
        held := fun cell inRest => ?_
        occupied := ?_
        bounded := ?_ }
    · rw [isSentinel, Bool.or_eq_false_iff, beq_eq_false_iff_ne, beq_eq_false_iff_ne]
        at notSentinel
      refine notMem_ends notSentinel.1 ?_ notSentinel.2
      rw [List.mem_map]
      rintro ⟨cell, inRest, same⟩
      exact elsewhere cell inRest same
    · refine (congrArg (Option.map HandleNode.value)
        ((erased cell.1).trans (if_neg (elsewhere cell inRest)))).trans ?_
      refine (values.seen cell.1).trans (holds.held cell ?_)
      simp only [List.mem_append, List.mem_cons] at inRest ⊢
      tauto
    · have occupied := holds.occupied
      rw [Slab.occupied_erase lastFound, values.occupied, occupied]
      simp only [List.length_append, List.length_cons]
      omega
    · have bounded := holds.bounded
      simp only [List.length_append, List.length_cons] at bounded ⊢
      omega

theorem popBack_nil (holds : list.Holds []) : list.popBack = .ok (list, none) := by
  obtain ⟨sentinel, found, prev⟩ := holds.rear_prev
  rw [HandleList.popBack, Slab.fetch_eq_ok_iff.2 found, ok_bind,
    if_pos (show sentinel.links.prev = front from prev)]
  rfl

theorem popBack (holds : list.Holds (before ++ [(handle, value)])) :
    ∃ nodes, list.popBack = .ok ({ list with nodes }, some value) ∧
      ({ list with nodes } : HandleList α).Holds before := by
  have member : (handle, value) ∈ before ++ [(handle, value)] := by simp
  obtain ⟨nodes, step, shorter⟩ := holds.remove
  rw [List.append_nil] at shorter
  obtain ⟨sentinel, found, prev⟩ := holds.rear_prev
  rw [List.map_append, List.map_singleton, List.getLastD_concat] at prev
  have notFront : sentinel.links.prev ≠ front := by
    intro same
    have isHandle : handle ∈ (before ++ [(handle, value)]).map Prod.fst :=
      List.mem_map_of_mem member
    have isFront : front = handle := same.symm.trans prev
    exact holds.path.first_notMem (isFront ▸ isHandle)
  refine ⟨nodes, ?_, shorter⟩
  rw [HandleList.popBack, Slab.fetch_eq_ok_iff.2 found, ok_bind, if_neg notFront, prev, step]

/-! ## Moving and replacing -/

theorem bringToFront (holds : list.Holds (before ++ (handle, value) :: after)) :
    ∃ nodes, list.bringToFront handle = .ok { list with nodes } ∧
      ({ list with nodes } : HandleList α).Holds ((handle, value) :: (before ++ after)) := by
  have member : (handle, value) ∈ before ++ (handle, value) :: after := by simp
  have notSentinel := holds.isSentinel_eq_false member
  obtain ⟨sentinel, found, next⟩ := holds.path.steps.fromFirst.after
  cases before with
  | nil =>
      have isNext : sentinel.links.next = handle := next
      refine ⟨list.nodes, ?_, holds⟩
      rw [HandleList.bringToFront, notSentinel, if_neg Bool.false_ne_true,
        Slab.fetch_eq_ok_iff.2 found, ok_bind, if_pos isNext]
      rfl
  | cons first rest =>
      have different : first.1 ≠ handle := holds.handle_ne first (by simp)
      have notNext : sentinel.links.next ≠ handle := by
        rw [show sentinel.links.next = first.1 from next]
        exact different
      have path := holds.path
      rw [List.map_append, List.map_cons] at path
      obtain ⟨nodes, step, moved, rewires⟩ := LinkField.moveAfter_spec path
      refine ⟨nodes, ?_, holds.relink rewires ?_ List.perm_middle.symm⟩
      · rw [HandleList.bringToFront, notSentinel, if_neg Bool.false_ne_true,
          Slab.fetch_eq_ok_iff.2 found, ok_bind, if_neg notNext, step]
        rfl
      · rw [List.map_cons, List.map_append]
        exact moved

theorem replace (holds : list.Holds (before ++ (handle, value) :: after)) (other : α) :
    (list.replace handle other).2 = some value ∧
      (list.replace handle other).1.capacity = list.capacity ∧
      (list.replace handle other).1.Holds (before ++ (handle, other) :: after) := by
  have member : (handle, value) ∈ before ++ (handle, value) :: after := by simp
  obtain ⟨node, found, isValue⟩ := holds.node_of_mem member
  have notSentinel := holds.isSentinel_eq_false member
  let revised : HandleNode α := { node with value := some other }
  have replaced : list.replace handle other =
      ({ list with nodes := list.nodes.write handle (some revised) }, some value) := by
    simp [HandleList.replace, notSentinel, found, Slab.replace, isValue, revised]
  have agree : Slab.Agree HandleNode.links list.nodes
      (list.nodes.write handle (some revised)) := Slab.agree_write found rfl
  have written := Slab.get?_write (Slab.lt_size_of_get? found) (some revised)
  have sameHandles : (before ++ (handle, other) :: after).map Prod.fst =
      (before ++ (handle, value) :: after).map Prod.fst := by simp
  rw [replaced]
  refine ⟨rfl, rfl, ?_⟩
  refine
    { wellFormed := agree.wellFormed holds.wellFormed
      path := sameHandles ▸ LinkField.path_of_agree holds.path agree
      held := fun cell inCells => ?_
      occupied := agree.occupied.trans (holds.occupied.trans (by simp))
      bounded := Nat.le_trans (by simp) holds.bounded }
  rw [written]
  rcases List.mem_append.1 inCells with inBefore | behind
  · rw [if_neg (holds.handle_ne cell (List.mem_append_left _ inBefore))]
    exact holds.held cell (List.mem_append_left _ inBefore)
  · rcases List.mem_cons.1 behind with rfl | inAfter
    · rw [if_pos rfl]
      rfl
    · rw [if_neg (holds.handle_ne cell (List.mem_append_right _ inAfter))]
      exact holds.held cell (List.mem_append_right _ (List.mem_cons_of_mem _ inAfter))

end Holds

end BoundedCache.HandleList
