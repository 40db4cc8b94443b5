import BoundedCache.Proofs.Round.Splice

/-!
# The search for a victim

A search walks from the tail to the head and watches the oldest header, which moves as rounds begin
on the way. Seen from outside it is a rule on the order and the times of the last visits: the first
entry that the header has reached when the walk comes to it is taken out, and the entries before it
are brought to the head one after another.
-/

namespace BoundedCache.Round

/-! ## Watching the headers -/

/-- What a search keeps in mind on its way. -/
structure Watch where
  walked : Nat
  headers : Headers
  rounds : Nat

/-- One more entry was passed, last visited at this time. When `patience` entries were passed since
the last round, a round begins at this time. -/
def Watch.pass (patience : Nat) (watch : Watch) (time : Nat) : Watch :=
  if patience ≤ watch.walked + 1 then ⟨0, watch.headers.push time, watch.rounds + 1⟩
  else { watch with walked := watch.walked + 1 }

namespace RoundList

variable {α : Type}

/-- The times of the last visits to these nodes. -/
def timesOf (list : RoundList α) (slots : List Nat) : List Nat :=
  slots.filterMap fun slot => (list.nodes.get? slot).map Node.lastVisit

/-- What a search keeps in mind once it has passed these nodes. -/
def watchAfter (list : RoundList α) (patience : Nat) (passed : List Nat) : Watch :=
  (list.timesOf passed).foldl (Watch.pass patience) ⟨list.walked, list.headers, list.rounds⟩

/-- The last visit to the node is no later than the oldest header once these nodes were passed. -/
def DueAfter (list : RoundList α) (patience : Nat) (passed : List Nat) (slot : Nat) : Prop :=
  ∃ node, list.nodes.get? slot = some node ∧
    node.lastVisit ≤ (list.watchAfter patience passed).headers.last

/-- A search passes all these nodes, since none is due when it comes to it. -/
def Passes (list : RoundList α) (patience : Nat) (slots : List Nat) : Prop :=
  ∀ earlier slot later, slots = earlier ++ slot :: later → ¬ list.DueAfter patience earlier slot

/-- The list once a search has passed these nodes; only its headers and counts have changed. -/
def afterPassing (list : RoundList α) (patience : Nat) (passed : List Nat) : RoundList α :=
  let watch := list.watchAfter patience passed
  { list with
    headers := watch.headers
    walked := watch.walked
    scanned := list.scanned + passed.length
    rounds := watch.rounds }

variable {list : RoundList α} {order passed : List Nat} {patience index : Nat} {node : Node α}

theorem watchAfter_concat (holds : list.nodes.get? index = some node) :
    list.watchAfter patience (passed ++ [index]) =
      (list.watchAfter patience passed).pass patience node.lastVisit := by
  have times : list.timesOf (passed ++ [index]) = list.timesOf passed ++ [node.lastVisit] := by
    simp [timesOf, holds]
  rw [watchAfter, times, List.foldl_append]
  rfl

/-- Passing a node is what the list counts. -/
theorem pass_afterPassing (holds : list.nodes.get? index = some node) :
    (list.afterPassing patience passed).pass patience node.lastVisit =
      list.afterPassing patience (passed ++ [index]) := by
  rw [afterPassing, afterPassing, watchAfter_concat holds, List.length_append,
    List.length_singleton, ← Nat.add_assoc]
  simp only [RoundList.pass, Watch.pass, beginRound]
  split <;> rfl

theorem Ordered.afterPassing (ordered : list.Ordered order) (patience : Nat) (passed : List Nat) :
    (list.afterPassing patience passed).Ordered order :=
  ⟨ordered.chain, ordered.linked⟩

theorem Passes.init (passes : list.Passes patience (passed ++ [index])) :
    list.Passes patience passed := by
  intro earlier slot later split
  exact passes earlier slot (later ++ [index]) (by simp [split])

theorem Passes.last (passes : list.Passes patience (passed ++ [index])) :
    ¬ list.DueAfter patience passed index :=
  passes passed index [] rfl

/-! ## The walk -/

/-- The walk comes past nodes of which none is due. -/
theorem Ordered.searchFrom (ordered : list.Ordered order.reverse) :
    ∀ {rest : List Nat} {fuel : Nat}, order = passed ++ rest → list.Passes patience passed →
      RoundList.searchFrom patience (fuel + passed.length) list order.head? =
        RoundList.searchFrom patience fuel (list.afterPassing patience passed) rest.head? := by
  induction passed using List.reverseRecOn with
  | nil =>
      rintro rest fuel rfl _
      rfl
  | append_singleton passed index inductionHypothesis =>
      intro rest fuel split passes
      rw [List.append_assoc, List.singleton_append] at split
      have place : order.reverse = rest.reverse ++ index :: passed.reverse := by simp [split]
      rw [place] at ordered
      obtain ⟨node, holds, _, links⟩ := ordered.node_at
      have onward : node.links.prev = rest.head? := by rw [links, List.getLast?_reverse]
      have fetched : (list.afterPassing patience passed).fetch index = .ok node :=
        fetch_of_get? holds
      have notDue : ¬ node.lastVisit ≤ (list.afterPassing patience passed).headers.last :=
        fun due => passes.last ⟨node, holds, due⟩
      calc
        RoundList.searchFrom patience (fuel + (passed ++ [index]).length) list order.head?
          = RoundList.searchFrom patience (fuel + 1 + passed.length) list order.head? := by
            rw [List.length_append, List.length_singleton, Nat.add_right_comm, Nat.add_assoc]
        _ = RoundList.searchFrom patience (fuel + 1) (list.afterPassing patience passed)
              (some index) := inductionHypothesis split passes.init
        _ = RoundList.searchFrom patience fuel
              ((list.afterPassing patience passed).pass patience node.lastVisit)
              node.links.prev := by
            rw [RoundList.searchFrom, fetched, ok_bind, if_neg notDue]
        _ = _ := by rw [pass_afterPassing holds, onward]

/-- A search may take more steps than there are nodes on the list. -/
theorem Ordered.length_lt_searchBound (ordered : list.Ordered order) (patience : Nat) :
    order.length < list.searchBound patience := by
  have slots := ChainField.chain_length_le ordered.chain
  calc
    order.length < 3 * list.nodes.slots.size + 1 := by omega
    _ ≤ list.searchBound patience := Nat.le_mul_of_pos_right _ (by omega)

/-- Once it has passed nodes of which none is due, a search goes on from the next one. -/
theorem Ordered.selectVictim_passing {rest : List Nat} (ordered : list.Ordered order.reverse)
    (split : order = passed ++ rest) (passes : list.Passes patience passed) :
    ∃ fuel, list.selectVictim patience =
      RoundList.searchFrom patience (fuel + 1) (list.afterPassing patience passed) rest.head? := by
  have isTail : list.tail = order.head? := by
    rw [ChainField.chain_last ordered.chain, List.getLast?_reverse]
  have steps := ordered.length_lt_searchBound patience
  obtain ⟨fuel, enough⟩ : ∃ fuel, list.searchBound patience = fuel + 1 + passed.length := by
    rw [List.length_reverse, split, List.length_append] at steps
    exact ⟨list.searchBound patience - passed.length - 1, by omega⟩
  exact ⟨fuel, by rw [RoundList.selectVictim, enough, isTail, ordered.searchFrom split passes]⟩

/-! ## Victims -/

/-- What a search does to a list with this order, from tail to head. -/
structure SelectsByRule (list : RoundList α) (patience : Nat) (order : List Nat) : Prop where
  /-- The first entry that is due is taken off, and those before it are brought to the head. -/
  finds : ∀ passed victim ahead, order = passed ++ victim :: ahead →
    list.Passes patience passed → list.DueAfter patience passed victim →
    ∃ unlinked result,
      (list.afterPassing patience passed).unlink victim = .ok unlinked ∧
      unlinked.bringEach passed = .ok result ∧
      list.selectVictim patience = .ok (result, some victim) ∧
      result.Ordered (ahead ++ passed).reverse ∧
      (list.afterPassing patience passed).Reorders result ∧
      ∀ slot node, list.nodes.get? slot = some node → node.linked = false →
        result.nodes.get? slot = some node
  /-- If none is due, only headers and counts change. -/
  misses : list.Passes patience order →
    list.selectVictim patience = .ok (list.afterPassing patience order, none)

/-- A search on a list that is in order follows the rule. -/
theorem selects_by_rule (ordered : list.Ordered order.reverse) (patience : Nat) :
    list.SelectsByRule patience order := by
  refine ⟨?finds, ?misses⟩
  case finds =>
      intro passed victim ahead split passes due
      obtain ⟨node, holds, isDue⟩ := due
      have place : order.reverse = ahead.reverse ++ victim :: passed.reverse := by simp [split]
      have walked := ordered.afterPassing patience passed
      rw [place] at walked
      obtain ⟨unlinked, result, unlinks, moves, extracts, resultOrdered, reorders, spares⟩ :=
        walked.extractVictim
      refine ⟨unlinked, result, unlinks, moves, ?_, ?_, reorders, ?_⟩
      · obtain ⟨fuel, search⟩ := ordered.selectVictim_passing split passes
        have fetched : (list.afterPassing patience passed).fetch victim = .ok node :=
          fetch_of_get? holds
        have reached : node.lastVisit ≤ (list.afterPassing patience passed).headers.last := isDue
        rw [search, List.head?_cons, RoundList.searchFrom, fetched, ok_bind, if_pos reached,
          extracts]
        rfl
      · rwa [List.reverse_append]
      · intro slot other otherHolds unlinkedThere
        have absent : slot ∉ order.reverse := by
          rw [← ordered.linked slot other otherHolds, unlinkedThere]
          exact Bool.false_ne_true
        rw [place] at absent
        exact (spares slot absent).trans otherHolds
  case misses =>
      intro passes
      obtain ⟨fuel, search⟩ := ordered.selectVictim_passing (List.append_nil order).symm passes
      exact search

/-- Three linked nodes and one that is not linked. The middle one is due only because passing the
tail begins a round. -/
theorem selects_by_rule_moving_header :
    let list : RoundList Nat :=
      { nodes := ⟨#[some ⟨10, 9, ⟨some 1, none⟩, true⟩, some ⟨11, 4, ⟨some 2, some 0⟩, true⟩,
          some ⟨12, 3, ⟨none, some 1⟩, true⟩, some ⟨13, 1, {}, false⟩], [], 4⟩
        head := some 2
        tail := some 0
        headers := ⟨8, 6, 3⟩
        walked := 0
        scanned := 0
        rounds := 0 }
    list.Ordered [0, 1, 2].reverse ∧ list.SelectsByRule 1 [0, 1, 2] ∧
      ∃ result, list.selectVictim 1 = .ok (result, some 1) ∧ result.Ordered [0, 2] := by
  intro list
  have ordered : list.Ordered [0, 1, 2].reverse := by
    refine ⟨⟨⟨⟨rfl, rfl⟩, ⟨rfl, rfl⟩, ⟨rfl, rfl⟩, ⟨rfl, rfl⟩⟩, by decide, by decide⟩, ?_⟩
    intro index node holds
    have inBounds : index < 4 := Slab.lt_size_of_get? holds
    match index, inBounds with
    | 0, _ => cases holds; decide
    | 1, _ => cases holds; decide
    | 2, _ => cases holds; decide
    | 3, _ => cases holds; decide
  have byRule : list.SelectsByRule 1 [0, 1, 2] := selects_by_rule ordered 1
  have passes : list.Passes 1 [0] := by
    intro earlier slot later split due
    obtain ⟨rfl, rfl, rfl⟩ : earlier = [] ∧ slot = 0 ∧ later = [] := by
      cases earlier with
      | nil => simpa [eq_comm] using split
      | cons first others => simp at split
    obtain ⟨node, holds, late⟩ := due
    cases holds
    exact absurd late (by decide)
  have due : list.DueAfter 1 [0] 1 := ⟨_, rfl, by decide⟩
  obtain ⟨_, result, _, _, found, resultOrdered, _⟩ := byRule.finds [0] 1 [2] rfl passes due
  exact ⟨ordered, byRule, result, found, resultOrdered⟩

end RoundList

end BoundedCache.Round
