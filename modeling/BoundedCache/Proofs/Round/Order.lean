import BoundedCache.Proofs.Links.Chain
import BoundedCache.Round.List

/-!
# The order of a round list

A round list is in order when the chain from its head to its tail leads through exactly the linked
nodes. Each operation on nodes that are in order succeeds, changes the order in the way that it
says, and changes neither an item nor the time of a visit but the one it is asked to.
-/

namespace BoundedCache.Round

variable {α : Type}

/-! ## Order -/

/-- From head to tail, the list leads through these nodes, and no other node is linked. -/
structure RoundList.Ordered (list : RoundList α) (order : List Nat) : Prop where
  chain : orderField.Chain list.nodes list.head list.tail order
  linked : ∀ index node, list.nodes.get? index = some node →
    (node.linked = true ↔ index ∈ order)

/-- The nodes hold the same items with the same visits, and the searches and rounds so far are the
same; the order may differ. -/
structure RoundList.Reorders (before after : RoundList α) : Prop where
  agree : Slab.Agree (fun node => (node.item, node.lastVisit)) before.nodes after.nodes
  headers : after.headers = before.headers
  walked : after.walked = before.walked
  scanned : after.scanned = before.scanned
  rounds : after.rounds = before.rounds

namespace RoundList

variable {list : RoundList α} {order before after : List Nat} {index : Nat}

theorem ordered_empty : (empty : RoundList α).Ordered [] :=
  ⟨ChainField.chain_nil, by simp [empty]⟩

theorem ordered_clear (list : RoundList α) : list.clear.Ordered [] :=
  ⟨ChainField.chain_nil, by simp [clear]⟩

theorem Reorders.refl (list : RoundList α) : list.Reorders list :=
  ⟨Slab.Agree.refl _, rfl, rfl, rfl, rfl⟩

theorem Reorders.trans {first second third : RoundList α} (earlier : first.Reorders second)
    (later : second.Reorders third) : first.Reorders third where
  agree := earlier.agree.trans later.agree
  headers := later.headers.trans earlier.headers
  walked := later.walked.trans earlier.walked
  scanned := later.scanned.trans earlier.scanned
  rounds := later.rounds.trans earlier.rounds

theorem Ordered.node_at (ordered : list.Ordered (before ++ index :: after)) :
    ∃ node, list.nodes.get? index = some node ∧ node.linked = true ∧
      node.links = ⟨before.getLast?, after.head?⟩ := by
  obtain ⟨node, holds, links⟩ := ChainField.chain_at ordered.chain
  exact ⟨node, holds, (ordered.linked index node holds).2 (by simp), links⟩

/-! ## Steps on one node -/

@[simp] theorem toChecked_ok {β : Type} (value : β) :
    Attempt.toChecked (.ok value : Attempt α β) = .ok value := rfl

theorem modify_of_get? {node : Node α} (holds : list.nodes.get? index = some node)
    (change : Node α → Node α) :
    list.modify index change =
      .ok { list with nodes := list.nodes.write index (some (change node)) } := by
  simp [modify, holds]

theorem fetch_of_get? {node : Node α} (holds : list.nodes.get? index = some node) :
    list.fetch index = .ok node := by
  simp [fetch, holds]

theorem modify_of_modify {change : Node α → Node α} {nodes : Slab (Node α)}
    (modified : list.nodes.modify index change = .ok nodes) :
    list.modify index change = .ok { list with nodes } := by
  cases holds : list.nodes.get? index with
  | none =>
      rw [Slab.modify_of_vacant holds] at modified
      contradiction
  | some node =>
      rw [Slab.modify_of_get? holds] at modified
      rw [modify_of_get? holds, Except.ok.inj modified]

theorem setNext_of_setNext {nodes : Slab (Node α)} {left right : Option Nat}
    (step : orderField.setNext list.nodes right left = .ok nodes) :
    list.setNext right left =
      .ok { list with nodes, head := ChainField.firstAfter list.head left right } := by
  cases left with
  | none =>
      cases step
      rfl
  | some slot => exact modify_of_modify step

theorem setPrev_of_setPrev {nodes : Slab (Node α)} {left right : Option Nat}
    (step : orderField.setPrev list.nodes left right = .ok nodes) :
    list.setPrev left right =
      .ok { list with nodes, tail := ChainField.lastAfter list.tail left right } := by
  cases right with
  | none =>
      cases step
      rfl
  | some slot => exact modify_of_modify step

/-- Joining on the list is joining on the chain, with head and tail as its ends. -/
theorem join_of_join {nodes : Slab (Node α)} {left right : Option Nat}
    (step : orderField.join list.nodes left right = .ok nodes) :
    list.join left right =
      .ok { list with
        nodes := nodes
        head := ChainField.firstAfter list.head left right
        tail := ChainField.lastAfter list.tail left right } := by
  cases next : orderField.setNext list.nodes right left with
  | error fault =>
      rw [ChainField.join, next] at step
      contradiction
  | ok middle =>
      rw [ChainField.join, next, ok_bind] at step
      rw [join, setNext_of_setNext next, ok_bind]
      exact setPrev_of_setPrev step

/-- A visit keeps the order, the items and all other visits. -/
theorem Ordered.setVisit (ordered : list.Ordered order) {node : Node α}
    (holds : list.nodes.get? index = some node) (time : Nat) :
    ∃ nodes, list.setVisit index time = .ok { list with nodes } ∧
      ({ list with nodes } : RoundList α).Ordered order ∧
      (∀ other, nodes.get? other = if other = index then some { node with lastVisit := time }
        else list.nodes.get? other) ∧
      Slab.Agree Node.item list.nodes nodes := by
  have written := Slab.get?_write (Slab.lt_size_of_get? holds)
    (some { node with lastVisit := time })
  have agree : Slab.Agree (fun node => (node.item, node.links)) list.nodes
      (list.nodes.write index (some { node with lastVisit := time })) :=
    Slab.agree_write holds rfl
  refine ⟨_, modify_of_get? holds _, ⟨?_, ?_⟩, written, agree.comp Prod.fst⟩
  · exact ChainField.chain_of_agree ordered.chain (agree.comp Prod.snd)
  · intro other found foundHolds
    dsimp only at foundHolds
    rw [written] at foundHolds
    by_cases same : other = index
    · rw [if_pos same] at foundHolds
      rw [← Option.some.inj foundHolds, same]
      exact ordered.linked index node holds
    · rw [if_neg same] at foundHolds
      exact ordered.linked other found foundHolds

/-- Marking one node as linked or not changes only what is in the order there. -/
theorem linked_write {nodes : Slab (Node α)} {old new : Node α} {others : List Nat}
    (linked : ∀ other node, nodes.get? other = some node → other ≠ index →
      (node.linked = true ↔ other ∈ others))
    (holds : nodes.get? index = some old) (marked : new.linked = true ↔ index ∈ others) :
    ∀ other node, (nodes.write index (some new)).get? other = some node →
      (node.linked = true ↔ other ∈ others) := by
  intro other node found
  rw [Slab.get?_write (Slab.lt_size_of_get? holds)] at found
  by_cases same : other = index
  · rw [if_pos same] at found
    rw [← Option.some.inj found, same]
    exact marked
  · rw [if_neg same] at found
    exact linked other node found same

theorem linked_of_agree {before after : Slab (Node α)}
    (agree : Slab.Agree Node.linked before after) {others : List Nat} {other : Nat}
    (linked : ∀ node, before.get? other = some node → (node.linked = true ↔ other ∈ others)) :
    ∀ node, after.get? other = some node → (node.linked = true ↔ other ∈ others) := by
  intro node found
  have seen := agree.seen other
  rw [found, Option.map_some, eq_comm, Option.map_eq_some_iff] at seen
  obtain ⟨original, holds, same⟩ := seen
  rw [← same]
  exact linked original holds

theorem Ordered.of_agree (ordered : list.Ordered order) {nodes : Slab (Node α)}
    (agree : Slab.Agree (fun node => (node.links, node.linked)) list.nodes nodes) :
    ({ list with nodes } : RoundList α).Ordered order where
  chain := ChainField.chain_of_agree ordered.chain (agree.comp Prod.fst)
  linked other := linked_of_agree (agree.comp Prod.snd) (ordered.linked other)

/-! ## Taking a node off -/

theorem Ordered.unlink (ordered : list.Ordered (before ++ index :: after)) :
    ∃ result, list.unlink index = .ok result ∧ result.Ordered (before ++ after) ∧
      list.Reorders result := by
  obtain ⟨node, holds, linked, links⟩ := ordered.node_at
  obtain ⟨joined, step, rewires, chain⟩ := ChainField.detach_spec ordered.chain
  have stored : (joined.get? index).isSome := by
    rw [rewires.isSome_get?, holds]
    rfl
  obtain ⟨kept, keptHolds⟩ := Option.isSome_iff_exists.1 stored
  let final : Slab (Node α) :=
    joined.write index (some { kept with links := {}, linked := false })
  have distinct := ChainField.chain_nodup ordered.chain
  have absent : index ∉ before ++ after := (List.nodup_middle.1 distinct).notMem
  refine ⟨{ list with
      nodes := final
      head := ChainField.firstAfter list.head before.getLast? after.head?
      tail := ChainField.lastAfter list.tail before.getLast? after.head? },
    ?_, ⟨?_, ?_⟩, ⟨?_, rfl, rfl, rfl, rfl⟩⟩
  · simp only [RoundList.unlink, fetch_of_get? holds, ok_bind, linked, links, join_of_join step]
    exact modify_of_modify (Slab.modify_of_get? keptHolds _)
  · refine ChainField.chain_of_get? chain fun other member => ?_
    have different : other ≠ index := fun same => absent (same ▸ member)
    rw [Slab.get?_write (Slab.lt_size_of_get? keptHolds), if_neg different]
  · refine linked_write ?_ keptHolds (by simp [absent])
    intro other found foundHolds different
    refine linked_of_agree (rewires.agree Node.linked fun _ _ => rfl) ?_ found foundHolds
    intro original originalHolds
    rw [ordered.linked other original originalHolds]
    simp [different]
  · exact (rewires.agree _ fun _ _ => rfl).trans (Slab.agree_write keptHolds rfl)

/-! ## Putting a node at the head -/

theorem Ordered.link (ordered : list.Ordered order) (stored : (list.nodes.get? index).isSome)
    (fresh : index ∉ order) :
    ∃ result, list.link index = .ok result ∧ result.Ordered (index :: order) ∧
      list.Reorders result := by
  obtain ⟨node, holds⟩ := Option.isSome_iff_exists.1 stored
  -- the node is marked first, which the chain does not notice
  let mark := fun node : Node α => { node with links := ⟨none, list.head⟩, linked := true }
  let marked := list.nodes.write index (some (mark node))
  have written := Slab.get?_write (Slab.lt_size_of_get? holds) (some (mark node))
  have markedHolds : marked.get? index = some (mark node) := by rw [written, if_pos rfl]
  have chain : orderField.Chain marked list.head list.tail order := by
    refine ChainField.chain_of_get? ordered.chain fun other member => ?_
    have different : other ≠ index := fun same => fresh (same ▸ member)
    rw [written, if_neg different]
  obtain ⟨final, prevStep, rewires, longer⟩ :=
    ChainField.setPrev_front chain markedHolds rfl fresh
  let tail := ChainField.lastAfter list.tail (some index) list.head
  refine ⟨{ list with nodes := final, head := some index, tail }, ?_, ⟨longer, ?_⟩,
    ⟨?_, rfl, rfl, rfl, rfl⟩⟩
  · have marks : list.modify index mark = .ok { list with nodes := marked } :=
      modify_of_get? holds mark
    have prev : ({ list with nodes := marked } : RoundList α).setPrev (some index) list.head =
        .ok { list with nodes := final, tail } := setPrev_of_setPrev prevStep
    simp only [mark] at marks
    rw [RoundList.link, marks, ok_bind, prev]
    rfl
  · intro other
    refine linked_of_agree (rewires.agree Node.linked fun _ _ => rfl) ?_
    refine linked_write ?_ holds (by simp [mark]) other
    intro other original originalHolds different
    rw [ordered.linked other original originalHolds]
    simp [different]
  · have marks : Slab.Agree (fun node => (node.item, node.lastVisit)) list.nodes marked :=
      Slab.agree_write holds rfl
    exact marks.trans (rewires.agree _ fun _ _ => rfl)

/-- A node of the list moves to its head; the others keep their order. -/
theorem Ordered.bringToHead (ordered : list.Ordered (before ++ index :: after)) :
    ∃ result, list.bringToHead index = .ok result ∧
      result.Ordered (index :: (before ++ after)) ∧ list.Reorders result := by
  have starts := ChainField.chain_first ordered.chain
  have distinct := List.nodup_middle.1 (ChainField.chain_nodup ordered.chain)
  have absent : index ∉ before ++ after := distinct.notMem
  cases before with
  | nil =>
      have atHead : list.head.getD missing = index := by rw [starts]; rfl
      exact ⟨list, by rw [RoundList.bringToHead, if_pos atHead]; rfl, ordered, Reorders.refl list⟩
  | cons first rest =>
      have notAtHead : ¬ list.head.getD missing = index := by
        rw [starts]
        intro same
        exact absent (same ▸ List.mem_cons_self)
      obtain ⟨middle, unlinked, shorter, earlier⟩ := ordered.unlink
      have stored : (middle.nodes.get? index).isSome := by
        rw [earlier.agree.isSome_get?]
        exact ChainField.chain_isSome ordered.chain (by simp)
      obtain ⟨result, linkStep, longer, later⟩ := shorter.link stored absent
      refine ⟨result, ?_, longer, earlier.trans later⟩
      rw [RoundList.bringToHead, if_neg notAtHead, unlinked, ok_bind, linkStep]

/-! ## Storing and discarding -/

/-- A stored item is not linked, so the order stays as it is. -/
theorem Ordered.store (ordered : list.Ordered order) (wellFormed : list.nodes.WellFormed)
    (item : α) (time : Nat) : (list.store item time).1.Ordered order where
  chain := ChainField.chain_insert wellFormed _ ordered.chain
  linked := by
    intro other found foundHolds
    have vacant := Slab.get?_insert_snd wellFormed (⟨item, time, {}, false⟩ : Node α)
    simp only [RoundList.store] at foundHolds
    rw [Slab.get?_insert wellFormed] at foundHolds
    by_cases same : other = (list.nodes.insert ⟨item, time, {}, false⟩).2
    · rw [if_pos same] at foundHolds
      rw [← Option.some.inj foundHolds]
      have notStored : other ∉ order := by
        intro member
        have held := ChainField.chain_isSome ordered.chain member
        rw [same, vacant] at held
        contradiction
      simp [notStored]
    · rw [if_neg same] at foundHolds
      exact ordered.linked other found foundHolds

theorem Ordered.discard (ordered : list.Ordered order) (absent : index ∉ order) :
    (list.discard index).1.Ordered order where
  chain := ChainField.chain_erase ordered.chain absent
  linked := by
    intro other found foundHolds
    simp only [RoundList.discard] at foundHolds
    rw [Slab.get?_erase] at foundHolds
    by_cases same : other = index
    · rw [if_pos same] at foundHolds
      contradiction
    · rw [if_neg same] at foundHolds
      exact ordered.linked other found foundHolds

/-! ## Victims -/

theorem searchBound_pos (list : RoundList α) (patience : Nat) :
    0 < list.searchBound patience :=
  Nat.mul_pos (Nat.succ_pos _) (by omega)

/-- A tail that went untouched long enough is the victim, and no entry is passed. -/
theorem Ordered.selectVictim {node : Node α} (ordered : list.Ordered (before ++ [index]))
    (holds : list.nodes.get? index = some node) (due : node.lastVisit ≤ list.headers.last)
    (patience : Nat) :
    ∃ result, list.selectVictim patience = .ok (result, some index) ∧ result.Ordered before ∧
      list.Reorders result := by
  have isTail : list.tail = some index := by
    rw [ChainField.chain_last ordered.chain, List.getLast?_concat]
  obtain ⟨found, foundHolds, _, links⟩ := ordered.node_at
  obtain ⟨result, unlinked, shorter, reorders⟩ := ordered.unlink
  rw [List.append_nil] at shorter
  refine ⟨result, ?_, shorter, reorders⟩
  obtain ⟨fuel, enough⟩ := Nat.exists_eq_add_of_lt (list.searchBound_pos patience)
  rw [Nat.zero_add] at enough
  have extracted : list.extractVictim index = .ok result := by
    simp [extractVictim, fetch_of_get? foundHolds, unlinked, links]
  rw [RoundList.selectVictim, enough, isTail, searchFrom, fetch_of_get? holds, ok_bind,
    if_pos due, extracted]
  rfl

end RoundList

end BoundedCache.Round
