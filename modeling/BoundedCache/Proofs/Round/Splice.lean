import BoundedCache.Proofs.Round.Order

/-!
# Taking out a victim

When a victim is taken off a round list, the entries behind it are cut off and put in front of the
head as they are, with four links changed. The result is the list that is left when each of these
entries is brought to the head by itself: both lead through the same nodes in the same order, and
this determines a list among those that hold the same entries and leave unlinked nodes alone.
-/

namespace BoundedCache.Round.RoundList

variable {α : Type} {list result middle : RoundList α} {order others : List Nat} {index : Nat}

/-! ## Nodes that are left alone -/

/-- The nodes outside the order are the same. -/
def Spares (before after : RoundList α) (order : List Nat) : Prop :=
  ∀ slot ∉ order, after.nodes.get? slot = before.nodes.get? slot

theorem Spares.refl (list : RoundList α) (order : List Nat) : list.Spares list order :=
  fun _ _ => rfl

theorem Spares.trans (earlier : list.Spares middle order) (later : middle.Spares result order) :
    list.Spares result order :=
  fun slot absent => (later slot absent).trans (earlier slot absent)

theorem Spares.of_perm (spares : list.Spares result order) (same : order.Perm others) :
    list.Spares result others :=
  fun slot absent => spares slot (mt same.mem_iff.1 absent)

theorem spares_modify {change : Node α → Node α} (step : list.modify index change = .ok result)
    (member : index ∈ order) : list.Spares result order := by
  intro slot absent
  rw [modify] at step
  split at step
  · contradiction
  · rename_i node holds
    cases step
    have different : slot ≠ index := fun same => absent (same ▸ member)
    rw [Slab.get?_write (Slab.lt_size_of_get? holds), if_neg different]

theorem spares_setNext {left right : Option Nat} (step : list.setNext right left = .ok result)
    (member : ∀ slot ∈ left, slot ∈ order) : list.Spares result order := by
  cases left with
  | none =>
      cases step
      exact Spares.refl list order
  | some slot => exact spares_modify step (member slot rfl)

theorem spares_setPrev {left right : Option Nat} (step : list.setPrev left right = .ok result)
    (member : ∀ slot ∈ right, slot ∈ order) : list.Spares result order := by
  cases right with
  | none =>
      cases step
      exact Spares.refl list order
  | some slot => exact spares_modify step (member slot rfl)

theorem spares_join {left right : Option Nat} (step : list.join left right = .ok result)
    (leftMember : ∀ slot ∈ left, slot ∈ order) (rightMember : ∀ slot ∈ right, slot ∈ order) :
    list.Spares result order := by
  obtain ⟨middle, nextStep, prevStep⟩ := exists_of_bind_eq_ok step
  exact (spares_setNext nextStep leftMember).trans (spares_setPrev prevStep rightMember)

/-- Taking a node off changes it and its neighbours. -/
theorem Ordered.spares_unlink (ordered : list.Ordered order) (member : index ∈ order)
    (step : list.unlink index = .ok result) : list.Spares result order := by
  obtain ⟨before, after, rfl⟩ := List.append_of_mem member
  obtain ⟨node, holds, linked, links⟩ := ordered.node_at
  simp only [RoundList.unlink, fetch_of_get? holds, ok_bind, linked, links] at step
  obtain ⟨joined, joinStep, markStep⟩ := exists_of_bind_eq_ok step
  refine (spares_join joinStep ?_ ?_).trans (spares_modify markStep member)
  · exact fun slot isLast => List.mem_append_left _ (List.mem_of_getLast? isLast)
  · intro slot isHead
    exact List.mem_append_right _ (List.mem_cons_of_mem _ (List.mem_of_head? isHead))

/-- Putting a node at the head changes it and the old head. -/
theorem Ordered.spares_link (ordered : list.Ordered order)
    (step : list.link index = .ok result) : list.Spares result (index :: order) := by
  obtain ⟨marked, markStep, step⟩ := exists_of_bind_eq_ok step
  obtain ⟨joined, prevStep, nextStep⟩ := exists_of_bind_eq_ok step
  refine ((spares_modify markStep List.mem_cons_self).trans (spares_setPrev prevStep ?_)).trans
    (spares_setNext nextStep (by simp))
  intro slot isHead
  rw [ChainField.chain_first ordered.chain] at isHead
  exact List.mem_cons_of_mem _ (List.mem_of_head? isHead)

theorem Ordered.spares_bringToHead (ordered : list.Ordered order) (member : index ∈ order)
    (step : list.bringToHead index = .ok result) : list.Spares result order := by
  rw [RoundList.bringToHead] at step
  split at step
  · cases step
    exact Spares.refl list order
  · obtain ⟨before, after, rfl⟩ := List.append_of_mem member
    obtain ⟨middle, unlinkStep, linkStep⟩ := exists_of_bind_eq_ok step
    obtain ⟨same, unlinked, shorter, _⟩ := ordered.unlink
    cases unlinked.symm.trans unlinkStep
    have linking := shorter.spares_link linkStep
    exact (ordered.spares_unlink member unlinkStep).trans
      (linking.of_perm List.perm_middle.symm)

/-! ## The order determines the list -/

/-- Two lists that hold the entries of another one, leave its unlinked nodes alone and lead through
the same nodes are equal. -/
theorem Ordered.eq_of_order {first second : RoundList α} (firstOrdered : first.Ordered order)
    (secondOrdered : second.Ordered order) (firstReorders : list.Reorders first)
    (secondReorders : list.Reorders second) (firstSpares : list.Spares first order)
    (secondSpares : list.Spares second order) : first = second := by
  have sameNodes : ∀ slot, first.nodes.get? slot = second.nodes.get? slot := by
    intro slot
    by_cases member : slot ∈ order
    · obtain ⟨before, after, rfl⟩ := List.append_of_mem member
      obtain ⟨firstNode, firstHolds, firstLinked, firstLinks⟩ := firstOrdered.node_at
      obtain ⟨secondNode, secondHolds, secondLinked, secondLinks⟩ := secondOrdered.node_at
      have seen := (firstReorders.agree.seen slot).trans (secondReorders.agree.seen slot).symm
      rw [firstHolds, secondHolds] at seen ⊢
      obtain ⟨sameItem, sameVisit⟩ := Prod.mk.inj (Option.some.inj seen)
      cases firstNode
      cases secondNode
      simp_all
    · rw [firstSpares slot member, secondSpares slot member]
  have nodes : first.nodes = second.nodes :=
    Slab.eq_of_get? (firstReorders.agree.free.trans secondReorders.agree.free.symm)
      (firstReorders.agree.occupied.trans secondReorders.agree.occupied.symm)
      (firstReorders.agree.size.trans secondReorders.agree.size.symm) sameNodes
  have head : first.head = second.head :=
    (ChainField.chain_first firstOrdered.chain).trans
      (ChainField.chain_first secondOrdered.chain).symm
  have tail : first.tail = second.tail :=
    (ChainField.chain_last firstOrdered.chain).trans
      (ChainField.chain_last secondOrdered.chain).symm
  have headers := firstReorders.headers.trans secondReorders.headers.symm
  have walked := firstReorders.walked.trans secondReorders.walked.symm
  have scanned := firstReorders.scanned.trans secondReorders.scanned.symm
  have rounds := firstReorders.rounds.trans secondReorders.rounds.symm
  cases first
  cases second
  simp_all

/-! ## Moving entries one by one -/

/-- Brings each of the nodes to the head, one after another. -/
def bringEach (list : RoundList α) (slots : List Nat) : Attempt α (RoundList α) :=
  slots.foldlM bringToHead list

/-- Entries that are brought to the head from the tail on end up there in their old order. -/
theorem Ordered.bringEach (passed : List Nat) :
    ∀ {list : RoundList α} {ahead : List Nat}, list.Ordered (ahead ++ passed.reverse) →
      ∃ result, list.bringEach passed = .ok result ∧
        result.Ordered (passed.reverse ++ ahead) ∧ list.Reorders result ∧
        list.Spares result (ahead ++ passed.reverse) := by
  induction passed with
  | nil =>
      intro list ahead ordered
      rw [List.reverse_nil, List.append_nil] at ordered
      exact ⟨list, rfl, ordered, Reorders.refl list, Spares.refl list _⟩
  | cons index passed inductionHypothesis =>
      intro list ahead ordered
      rw [List.reverse_cons, ← List.append_assoc] at ordered
      obtain ⟨middle, step, middleOrdered, earlier⟩ := ordered.bringToHead
      have spares := ordered.spares_bringToHead (by simp) step
      rw [List.append_nil, ← List.cons_append] at middleOrdered
      obtain ⟨result, others, resultOrdered, later, spared⟩ := inductionHypothesis middleOrdered
      have sameSlots : (index :: ahead ++ passed.reverse).Perm
          (ahead ++ passed.reverse ++ [index]) :=
        (List.perm_append_singleton _ _).symm
      refine ⟨result, ?_, ?_, earlier.trans later, ?_⟩
      · rw [RoundList.bringEach, List.foldlM_cons, step, ok_bind]
        exact others
      · rwa [List.reverse_cons, List.append_assoc, List.singleton_append]
      · rw [List.reverse_cons, ← List.append_assoc]
        exact spares.trans (spared.of_perm sameSlots)

/-! ## Moving entries together -/

/-- Three joins make two parts of a list change places. -/
theorem Ordered.splice {left right : List Nat} (ordered : list.Ordered (left ++ right))
    (someLeft : left ≠ []) (someRight : right ≠ []) :
    ∃ cut led result, list.join left.getLast? none = .ok cut ∧
      cut.join right.getLast? cut.head = .ok led ∧ led.join none right.head? = .ok result ∧
      result.Ordered (right ++ left) ∧ list.Reorders result ∧
      list.Spares result (left ++ right) := by
  obtain ⟨cut, led, final, cutStep, leadStep, beginStep, rewires, chain⟩ :=
    ChainField.swap_spec ordered.chain someLeft someRight
  have isHead : list.head = left.head? := by
    rw [ChainField.chain_first ordered.chain, List.head?_append_of_ne_nil _ someLeft]
  let tail := left.getLast?
  have cuts : list.join left.getLast? none = .ok { list with nodes := cut, tail } := by
    rw [join_of_join cutStep, ChainField.firstAfter_of_isSome (by simpa using someLeft)]
    rfl
  have leads : ({ list with nodes := cut, tail } : RoundList α).join right.getLast? list.head =
      .ok { list with nodes := led, tail } := by
    rw [isHead, join_of_join leadStep, ChainField.firstAfter_of_isSome (by simpa using someRight),
      ChainField.lastAfter_of_isSome (by simpa using someLeft)]
  have begins : ({ list with nodes := led, tail } : RoundList α).join none right.head? =
      .ok { list with nodes := final, head := right.head?, tail } := by
    rw [join_of_join beginStep, ChainField.lastAfter_of_isSome (by simpa using someRight)]
    rfl
  refine ⟨_, _, _, cuts, leads, begins, ⟨chain, fun slot => ?_⟩,
    ⟨rewires.agree _ fun _ _ => rfl, rfl, rfl, rfl, rfl⟩, ?_⟩
  · refine linked_of_agree (rewires.agree Node.linked fun _ _ => rfl) fun node holds => ?_
    rw [ordered.linked slot node holds]
    exact List.perm_append_comm.mem_iff
  · have inLeft : ∀ slot ∈ left.getLast?, slot ∈ left ++ right :=
      fun slot isLast => List.mem_append_left _ (List.mem_of_getLast? isLast)
    have isFirst : ∀ slot ∈ list.head, slot ∈ left ++ right := by
      intro slot isFirst
      rw [isHead] at isFirst
      exact List.mem_append_left _ (List.mem_of_head? isFirst)
    have inRight : ∀ slot ∈ right.getLast?, slot ∈ left ++ right :=
      fun slot isLast => List.mem_append_right _ (List.mem_of_getLast? isLast)
    have isNext : ∀ slot ∈ right.head?, slot ∈ left ++ right :=
      fun slot isNext => List.mem_append_right _ (List.mem_of_head? isNext)
    exact ((spares_join cuts inLeft (by simp)).trans (spares_join leads inRight isFirst)).trans
      (spares_join begins (by simp) isNext)

/-- Taking out a victim leaves the list that is left when it is unlinked and each entry behind it
is brought to the head, from the tail on. -/
theorem Ordered.extractVictim {ahead passed : List Nat} {victim : Nat}
    (ordered : list.Ordered (ahead ++ victim :: passed.reverse)) :
    ∃ unlinked result, list.unlink victim = .ok unlinked ∧
      unlinked.bringEach passed = .ok result ∧ list.extractVictim victim = .ok result ∧
      result.Ordered (passed.reverse ++ ahead) ∧ list.Reorders result ∧
      list.Spares result (ahead ++ victim :: passed.reverse) := by
  obtain ⟨node, holds, _, links⟩ := ordered.node_at
  obtain ⟨unlinked, unlinkStep, shorter, earlier⟩ := ordered.unlink
  obtain ⟨result, moves, resultOrdered, later, spared⟩ := Ordered.bringEach passed shorter
  have spares : list.Spares result (ahead ++ victim :: passed.reverse) := by
    refine (ordered.spares_unlink (by simp) unlinkStep).trans fun slot absent => ?_
    refine spared slot fun member => absent ?_
    rw [List.perm_middle.mem_iff]
    exact List.mem_cons_of_mem _ member
  refine ⟨unlinked, result, unlinkStep, moves, ?_, resultOrdered, earlier.trans later, spares⟩
  rw [RoundList.extractVictim, fetch_of_get? holds, ok_bind, unlinkStep, ok_bind, links]
  cases run : passed.reverse with
  | nil =>
      -- the victim is the tail, and no entry is moved
      rw [List.reverse_eq_nil_iff.1 run] at moves
      exact moves
  | cons start rest =>
      rw [run] at shorter resultOrdered spared
      obtain ⟨first, firstHolds, _, firstLinks⟩ := shorter.node_at
      simp only [List.head?_cons, fetch_of_get? firstHolds, ok_bind, firstLinks]
      cases isLast : ahead.getLast? with
      | none =>
          -- the run begins at the head already, and moving each of its entries restores it
          rw [List.getLast?_eq_none_iff.1 isLast, List.append_nil] at resultOrdered
          rw [List.getLast?_eq_none_iff.1 isLast, List.nil_append] at shorter spared
          have same : unlinked = result :=
            shorter.eq_of_order resultOrdered (Reorders.refl unlinked) later
              (Spares.refl unlinked _) spared
          rw [same]
          rfl
      | some before =>
          have someAhead : ahead ≠ [] := by
            rintro rfl
            cases isLast
          obtain ⟨cut, led, spliced, cuts, leads, begins, splicedOrdered, reorders, splices⟩ :=
            shorter.splice someAhead (List.cons_ne_nil start rest)
          have turned : (ahead ++ start :: rest).Perm (start :: rest ++ ahead) :=
            List.perm_append_comm
          have same : spliced = result :=
            splicedOrdered.eq_of_order resultOrdered reorders later (splices.of_perm turned)
              (spared.of_perm turned)
          have isTail : list.tail = (start :: rest).getLast? := by
            rw [ChainField.chain_last ordered.chain, run,
              List.getLast?_append_of_ne_nil _ (List.cons_ne_nil _ _), List.getLast?_cons_cons]
          rw [isLast] at cuts
          simp only [cuts, ok_bind, isTail, leads]
          exact begins.trans (congrArg Except.ok same)

end BoundedCache.Round.RoundList
