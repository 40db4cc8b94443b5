import BoundedCache.Links.Chain
import BoundedCache.Proofs.Checked
import BoundedCache.Proofs.Links.Path
import BoundedCache.Proofs.Slab

/-!
# Steps on chains

A chain is a path from the missing node through its nodes and back to the missing node: the first
node comes after the missing one, and the last node before it. So the ends of a chain need no cases
of their own. Joining two nodes, one of which may be missing, is described as on a ring.
-/

namespace BoundedCache.ChainField

variable {ν : Type} {field : ChainField ν} {nodes : Slab ν} {first last left right : Option Nat}

/-! ## Neighbours -/

/-- What comes after a node; the first node comes after the missing one. -/
def follower (field : ChainField ν) (nodes : Slab ν) (first : Option Nat) :
    Option Nat → Option (Option Nat)
  | none => some first
  | some index => (nodes.get? index).map fun node => (field.get node).next

/-- What comes before a node; the last node comes before the missing one. -/
def leader (field : ChainField ν) (nodes : Slab ν) (last : Option Nat) :
    Option Nat → Option (Option Nat)
  | none => some last
  | some index => (nodes.get? index).map fun node => (field.get node).prev

/-- On a chain between `first` and `last`, the node `right` follows `left`, and both say so. -/
structure Adjacent (field : ChainField ν) (nodes : Slab ν) (first last left right : Option Nat) :
    Prop where
  after : field.follower nodes first left = some right
  before : field.leader nodes last right = some left

/-- The chain between `first` and `last` leads through these nodes. -/
abbrev Chain (field : ChainField ν) (nodes : Slab ν) (first last : Option Nat)
    (order : List Nat) : Prop :=
  Path (field.Adjacent nodes first last) none (order.map some) none

theorem follower_eq_some_iff {index : Nat} :
    field.follower nodes first (some index) = some right ↔
      ∃ node, nodes.get? index = some node ∧ (field.get node).next = right := by
  simp [follower, Option.map_eq_some_iff]

theorem leader_eq_some_iff {index : Nat} :
    field.leader nodes last (some index) = some left ↔
      ∃ node, nodes.get? index = some node ∧ (field.get node).prev = left := by
  simp [leader, Option.map_eq_some_iff]

theorem chain_nil : field.Chain nodes none none [] :=
  ⟨⟨rfl, rfl⟩, by simp, by simp⟩

/-! ## Reading a chain -/

theorem headD_map_some (order : List Nat) : (order.map some).headD none = order.head? := by
  cases order <;> rfl

theorem getLastD_map_some (order : List Nat) :
    (order.map some).getLastD none = order.getLast? := by
  rw [List.getLastD_eq_getLast?, List.getLast?_map]
  cases order.getLast? <;> rfl

theorem map_some_append_cons (before : List Nat) (index : Nat) (after : List Nat) :
    (before ++ index :: after).map some = before.map some ++ some index :: after.map some := by
  rw [List.map_append, List.map_cons]

section Reading

variable {order before after : List Nat} {index : Nat}

theorem chain_first (chain : field.Chain nodes first last order) : first = order.head? := by
  have follows : some first = some ((order.map some).headD none) := chain.steps.fromFirst.after
  rw [headD_map_some] at follows
  exact Option.some.inj follows

theorem chain_last (chain : field.Chain nodes first last order) : last = order.getLast? := by
  have leads : some last = some ((order.map some).getLastD none) := chain.steps.toLast.before
  rw [getLastD_map_some] at leads
  exact Option.some.inj leads

theorem chain_nodup (chain : field.Chain nodes first last order) : order.Nodup :=
  List.Nodup.of_map some chain.inner_nodup

theorem chain_at (chain : field.Chain nodes first last (before ++ index :: after)) :
    ∃ node, nodes.get? index = some node ∧
      field.get node = ⟨before.getLast?, after.head?⟩ := by
  rw [Chain, map_some_append_cons] at chain
  obtain ⟨node, holds, next⟩ := follower_eq_some_iff.1 chain.stepFrom.after
  obtain ⟨same, sameHolds, prev⟩ := leader_eq_some_iff.1 chain.stepTo.before
  rw [holds] at sameHolds
  cases sameHolds
  rw [headD_map_some] at next
  rw [getLastD_map_some] at prev
  exact ⟨node, holds, by rw [← next, ← prev]⟩

theorem chain_isSome (chain : field.Chain nodes first last order) (member : index ∈ order) :
    (nodes.get? index).isSome := by
  obtain ⟨before, after, rfl⟩ := List.append_of_mem member
  obtain ⟨node, holds, _⟩ := chain_at chain
  simp [holds]

theorem chain_head_isSome (chain : field.Chain nodes first last order) :
    ∀ index ∈ first, (nodes.get? index).isSome := by
  intro index isFirst
  rw [chain_first chain] at isFirst
  exact chain_isSome chain (List.mem_of_head? isFirst)

/-- A node on a chain has nothing before it exactly if the chain begins with it. -/
theorem chain_prev_eq_none_iff (chain : field.Chain nodes first last order)
    (member : index ∈ order) {node : ν} (holds : nodes.get? index = some node) :
    (field.get node).prev = none ↔ first = some index := by
  have distinct := chain_nodup chain
  have isFirst := chain_first chain
  obtain ⟨before, after, rfl⟩ := List.append_of_mem member
  obtain ⟨same, sameHolds, links⟩ := chain_at chain
  rw [holds] at sameHolds
  cases sameHolds
  rw [links, isFirst]
  cases before with
  | nil => simp
  | cons head rest =>
      have different : head ≠ index := fun same => by simp [same] at distinct
      simp [different]

theorem chain_length_le (chain : field.Chain nodes first last order) :
    order.length ≤ nodes.slots.size := by
  refine Slab.length_le_size (chain_nodup chain) fun index member => ?_
  obtain ⟨node, holds⟩ := Option.isSome_iff_exists.1 (chain_isSome chain member)
  exact Slab.lt_size_of_get? holds

end Reading

/-! ## Steps that keep a chain -/

theorem Adjacent.of_get? {after : Slab ν} (adjacent : field.Adjacent nodes first last left right)
    (leftSame : ∀ index ∈ left, (after.get? index).map field.get = (nodes.get? index).map field.get)
    (rightSame : ∀ index ∈ right,
      (after.get? index).map field.get = (nodes.get? index).map field.get) :
    field.Adjacent after first last left right where
  after := by
    have follows := adjacent.after
    cases left with
    | none => exact follows
    | some index =>
        have same := congrArg (Option.map ChainLinks.next) (leftSame index rfl)
        rw [Option.map_map, Option.map_map] at same
        exact same.trans follows
  before := by
    have leads := adjacent.before
    cases right with
    | none => exact leads
    | some index =>
        have same := congrArg (Option.map ChainLinks.prev) (rightSame index rfl)
        rw [Option.map_map, Option.map_map] at same
        exact same.trans leads

theorem chain_of_get? {after : Slab ν} {order : List Nat}
    (chain : field.Chain nodes first last order)
    (same : ∀ index ∈ order, (after.get? index).map field.get = (nodes.get? index).map field.get) :
    field.Chain after first last order := by
  refine chain.mono fun a aMember b bMember adjacent => adjacent.of_get? ?_ ?_
  · intro index isLeft
    rw [Option.mem_def] at isLeft
    exact same index (by simpa [isLeft] using aMember)
  · intro index isRight
    rw [Option.mem_def] at isRight
    exact same index (by simpa [isRight] using bMember)

theorem chain_of_agree {after : Slab ν} {order : List Nat}
    (chain : field.Chain nodes first last order) (agree : Slab.Agree field.get nodes after) :
    field.Chain after first last order :=
  chain_of_get? chain fun index _ => agree.seen index

theorem chain_insert (wellFormed : nodes.WellFormed) (value : ν) {order : List Nat}
    (chain : field.Chain nodes first last order) :
    field.Chain (nodes.insert value).1 first last order := by
  refine chain_of_get? chain fun index member => ?_
  have held := chain_isSome chain member
  have vacant := Slab.get?_insert_snd wellFormed value
  have different : index ≠ (nodes.insert value).2 := by
    intro same
    rw [same, vacant] at held
    contradiction
  rw [Slab.get?_insert wellFormed, if_neg different]

theorem chain_erase {order : List Nat} {index : Nat}
    (chain : field.Chain nodes first last order) (absent : index ∉ order) :
    field.Chain (nodes.erase index).1 first last order := by
  refine chain_of_get? chain fun other member => ?_
  have different : other ≠ index := fun same => absent (same ▸ member)
  rw [Slab.get?_erase, if_neg different]

/-! ## Joining -/

/-- Only links of this field differ, and nodes that are not in `touched` are the same. -/
structure Rewires (field : ChainField ν) (touched : List (Option Nat)) (before after : Slab ν) :
    Prop where
  agree : ∀ {β : Type} (view : ν → β), (∀ links node, view (field.set links node) = view node) →
    Slab.Agree view before after
  kept : ∀ index, some index ∉ touched → after.get? index = before.get? index

theorem Rewires.isSome_get? {touched : List (Option Nat)} {before after : Slab ν}
    (rewires : field.Rewires touched before after) (index : Nat) :
    (after.get? index).isSome = (before.get? index).isSome :=
  (rewires.agree (fun _ => ()) fun _ _ => rfl).isSome_get? index

theorem Rewires.trans {touched others : List (Option Nat)} {before middle after : Slab ν}
    (earlier : field.Rewires touched before middle) (later : field.Rewires others middle after) :
    field.Rewires (touched ++ others) before after where
  agree view ignores := (earlier.agree view ignores).trans (later.agree view ignores)
  kept index absent := by
    rw [List.mem_append, not_or] at absent
    exact (later.kept index absent.2).trans (earlier.kept index absent.1)

theorem Rewires.chain {touched : List (Option Nat)} {before after : Slab ν}
    (rewires : field.Rewires touched before after) {order : List Nat}
    (chain : field.Chain before first last order)
    (untouched : ∀ index ∈ order, some index ∉ touched) :
    field.Chain after first last order :=
  chain_of_get? chain fun index member => by rw [rewires.kept index (untouched index member)]

/-- Where the chain begins once `right` comes after `left`. -/
abbrev firstAfter (first left right : Option Nat) : Option Nat :=
  left.elim right fun _ => first

/-- Where the chain ends once `left` comes before `right`. -/
abbrev lastAfter (last left right : Option Nat) : Option Nat :=
  right.elim left fun _ => last

theorem firstAfter_of_isSome (held : left.isSome) : firstAfter first left right = first := by
  obtain ⟨slot, rfl⟩ := Option.isSome_iff_exists.1 held
  rfl

theorem lastAfter_of_isSome (held : right.isSome) : lastAfter last left right = last := by
  obtain ⟨slot, rfl⟩ := Option.isSome_iff_exists.1 held
  rfl

/-- Now `right` comes after `left`, and nothing else changed. -/
structure NextSet (field : ChainField ν) (left right : Option Nat) (before after : Slab ν) :
    Prop where
  rewires : field.Rewires [left] before after
  there : ∀ first, field.follower after (firstAfter first left right) left = some right
  elsewhere : ∀ first {node}, node ≠ left →
    field.follower after (firstAfter first left right) node = field.follower before first node
  leaders : ∀ last node, field.leader after last node = field.leader before last node

/-- Now `left` comes before `right`, and nothing else changed. -/
structure PrevSet (field : ChainField ν) (left right : Option Nat) (before after : Slab ν) :
    Prop where
  rewires : field.Rewires [right] before after
  there : ∀ last, field.leader after (lastAfter last left right) right = some left
  elsewhere : ∀ last {node}, node ≠ right →
    field.leader after (lastAfter last left right) node = field.leader before last node
  followers : ∀ first node, field.follower after first node = field.follower before first node

/-- Changing the links of one stored node touches no other. -/
theorem rewires_modify {changed : Slab ν} {index : Nat} {links : ν → ChainLinks}
    (modified : nodes.modify index (fun node => field.set (links node) node) = .ok changed) :
    field.Rewires [some index] nodes changed where
  agree _ ignores := Slab.agree_modify modified fun node => ignores (links node) node
  kept other absent := by
    have different : other ≠ index := by simpa using absent
    simp [Slab.get?_of_modify modified, different]

theorem setNext_spec (field : ChainField ν) (right : Option Nat)
    (held : ∀ index ∈ left, (nodes.get? index).isSome) :
    ∃ result, field.setNext nodes right left = .ok result ∧
      field.NextSet left right nodes result := by
  cases left with
  | none =>
      refine ⟨nodes, rfl, ⟨fun _ _ => Slab.Agree.refl nodes, fun _ _ => rfl⟩, fun _ => rfl, ?_,
        fun _ _ => rfl⟩
      intro first node notMissing
      cases node with
      | none => contradiction
      | some _ => rfl
  | some slot =>
      obtain ⟨node, holds⟩ := Option.isSome_iff_exists.1 (held slot rfl)
      have modified := Slab.modify_of_get? holds (field.withNext right)
      have rewires := rewires_modify modified
      have seen := Slab.get?_of_modify modified
      refine ⟨_, modified, rewires, ?_, ?_, ?_⟩
      · intro first
        simp [follower, seen, holds]
      · intro first other different
        cases other with
        | none => rfl
        | some index => rw [follower, follower, rewires.kept index (by simpa using different)]
      · intro last other
        cases other with
        | none => rfl
        | some index =>
            rw [leader, leader, seen, Option.map_map]
            congr 1
            funext node
            by_cases same : index = slot <;> simp [same]

theorem setPrev_spec (field : ChainField ν) (left : Option Nat)
    (held : ∀ index ∈ right, (nodes.get? index).isSome) :
    ∃ result, field.setPrev nodes left right = .ok result ∧
      field.PrevSet left right nodes result := by
  cases right with
  | none =>
      refine ⟨nodes, rfl, ⟨fun _ _ => Slab.Agree.refl nodes, fun _ _ => rfl⟩, fun _ => rfl, ?_,
        fun _ _ => rfl⟩
      intro last node notMissing
      cases node with
      | none => contradiction
      | some _ => rfl
  | some slot =>
      obtain ⟨node, holds⟩ := Option.isSome_iff_exists.1 (held slot rfl)
      have modified := Slab.modify_of_get? holds (field.withPrev left)
      have rewires := rewires_modify modified
      have seen := Slab.get?_of_modify modified
      refine ⟨_, modified, rewires, ?_, ?_, ?_⟩
      · intro last
        simp [leader, seen, holds]
      · intro last other different
        cases other with
        | none => rfl
        | some index => rw [leader, leader, rewires.kept index (by simpa using different)]
      · intro first other
        cases other with
        | none => rfl
        | some index =>
            rw [follower, follower, seen, Option.map_map]
            congr 1
            funext node
            by_cases same : index = slot <;> simp [same]

/-- Stored or missing nodes can be joined, which touches nothing but the two. -/
theorem join_spec (field : ChainField ν) (leftHeld : ∀ index ∈ left, (nodes.get? index).isSome)
    (rightHeld : ∀ index ∈ right, (nodes.get? index).isSome) :
    ∃ result, field.join nodes left right = .ok result ∧ field.Rewires [left, right] nodes result ∧
      ∀ first last, Joins (field.Adjacent nodes first last)
        (field.Adjacent result (firstAfter first left right) (lastAfter last left right))
        left right := by
  obtain ⟨middle, nextStep, nextSet⟩ := setNext_spec field right leftHeld
  have stillHeld : ∀ index ∈ right, (middle.get? index).isSome := by
    intro index isRight
    rw [nextSet.rewires.isSome_get?]
    exact rightHeld index isRight
  obtain ⟨result, prevStep, prevSet⟩ := setPrev_spec field left stillHeld
  refine ⟨result, by rw [join, nextStep, ok_bind, prevStep],
    nextSet.rewires.trans prevSet.rewires, fun first last => ⟨⟨?_, ?_⟩, ?_⟩⟩
  · rw [prevSet.followers, nextSet.there]
  · exact prevSet.there last
  · intro a b adjacent notLeft notRight
    refine ⟨?_, ?_⟩
    · rw [prevSet.followers, nextSet.elsewhere first notLeft, adjacent.after]
    · rw [prevSet.elsewhere last notRight, nextSet.leaders, adjacent.before]

/-! ## Taking a node off and putting one on -/

section Changing

variable {order before after : List Nat} {index : Nat}

theorem detach_spec (chain : field.Chain nodes first last (before ++ index :: after)) :
    ∃ result, field.join nodes before.getLast? after.head? = .ok result ∧
      field.Rewires [before.getLast?, after.head?] nodes result ∧
      field.Chain result (firstAfter first before.getLast? after.head?)
        (lastAfter last before.getLast? after.head?) (before ++ after) := by
  have leftHeld : ∀ slot ∈ before.getLast?, (nodes.get? slot).isSome := by
    intro slot isLast
    exact chain_isSome chain (List.mem_append_left _ (List.mem_of_getLast? isLast))
  have rightHeld : ∀ slot ∈ after.head?, (nodes.get? slot).isSome := by
    intro slot isHead
    refine chain_isSome chain (List.mem_append_right _ (List.mem_cons_of_mem _ ?_))
    exact List.mem_of_head? isHead
  obtain ⟨result, step, rewires, joins⟩ := join_spec field leftHeld rightHeld
  refine ⟨result, step, rewires, ?_⟩
  rw [Chain, map_some_append_cons] at chain
  rw [Chain, List.map_append]
  refine chain.detach ?_
  rw [headD_map_some, getLastD_map_some]
  exact joins first last

/-- The two parts of a chain change places. -/
theorem swap_spec {left right : List Nat} (chain : field.Chain nodes first last (left ++ right))
    (someLeft : left ≠ []) (someRight : right ≠ []) :
    ∃ cut led result, field.join nodes left.getLast? none = .ok cut ∧
      field.join cut right.getLast? left.head? = .ok led ∧
      field.join led none right.head? = .ok result ∧
      field.Rewires [left.getLast?, none, right.getLast?, left.head?, none, right.head?] nodes
        result ∧
      field.Chain result right.head? left.getLast? (right ++ left) := by
  have nothing : ∀ (slab : Slab ν), ∀ slot ∈ (none : Option Nat), (slab.get? slot).isSome := by
    simp
  have leftEnd : ∀ slot ∈ left.getLast?, (nodes.get? slot).isSome := fun slot isLast =>
    chain_isSome chain (List.mem_append_left _ (List.mem_of_getLast? isLast))
  obtain ⟨cut, cutStep, cutRewires, cutJoins⟩ := join_spec field leftEnd (nothing nodes)
  have rightEnd : ∀ slot ∈ right.getLast?, (cut.get? slot).isSome := by
    intro slot isLast
    rw [cutRewires.isSome_get?]
    exact chain_isSome chain (List.mem_append_right _ (List.mem_of_getLast? isLast))
  have leftHead : ∀ slot ∈ left.head?, (cut.get? slot).isSome := by
    intro slot isHead
    rw [cutRewires.isSome_get?]
    exact chain_isSome chain (List.mem_append_left _ (List.mem_of_head? isHead))
  obtain ⟨led, leadStep, leadRewires, leadJoins⟩ := join_spec field rightEnd leftHead
  have rightHead : ∀ slot ∈ right.head?, (led.get? slot).isSome := by
    intro slot isHead
    rw [leadRewires.isSome_get?, cutRewires.isSome_get?]
    exact chain_isSome chain (List.mem_append_right _ (List.mem_of_head? isHead))
  obtain ⟨result, beginStep, beginRewires, beginJoins⟩ :=
    join_spec field (nothing led) rightHead
  refine ⟨cut, led, result, cutStep, leadStep, beginStep,
    (cutRewires.trans leadRewires).trans beginRewires, ?_⟩
  have closes : Joins (field.Adjacent nodes first last) (field.Adjacent cut first left.getLast?)
      ((left.map some).getLastD none) none := by
    have joins := cutJoins first last
    rw [getLastD_map_some]
    rwa [firstAfter_of_isSome (by simpa using someLeft)] at joins
  have leads : Joins (field.Adjacent cut first left.getLast?)
      (field.Adjacent led first left.getLast?) ((right.map some).getLastD none)
      ((left.map some).headD none) := by
    have joins := leadJoins first left.getLast?
    rw [getLastD_map_some, headD_map_some]
    rwa [firstAfter_of_isSome (by simpa using someRight),
      lastAfter_of_isSome (by simpa using someLeft)] at joins
  have begins : Joins (field.Adjacent led first left.getLast?)
      (field.Adjacent result right.head? left.getLast?) none ((right.map some).headD none) := by
    have joins := beginJoins first left.getLast?
    rw [headD_map_some]
    rwa [lastAfter_of_isSome (by simpa using someRight)] at joins
  rw [Chain, List.map_append] at chain ⊢
  exact chain.swap (by simpa using someLeft) (by simpa using someRight) closes leads begins

theorem pushFront_spec (chain : field.Chain nodes first last order)
    (held : (nodes.get? index).isSome) (fresh : index ∉ order) :
    ∃ result, field.pushFront nodes first index = .ok result ∧
      field.Rewires [none, some index, some index, first] nodes result ∧
      ∃ newLast, field.Chain result (some index) newLast (index :: order) := by
  have nothing : ∀ slot ∈ (none : Option Nat), (nodes.get? slot).isSome := by simp
  have stored : ∀ slot ∈ some index, (nodes.get? slot).isSome := by
    intro slot isIndex
    rw [← Option.some.inj isIndex]
    exact held
  obtain ⟨middle, leftStep, leftRewires, leftJoins⟩ := join_spec field nothing stored
  have stillStored : ∀ slot ∈ some index, (middle.get? slot).isSome := by
    intro slot isIndex
    rw [leftRewires.isSome_get?]
    exact stored slot isIndex
  have firstStored : ∀ slot ∈ first, (middle.get? slot).isSome := by
    intro slot isFirst
    rw [leftRewires.isSome_get?]
    exact chain_head_isSome chain slot isFirst
  obtain ⟨result, rightStep, rightRewires, rightJoins⟩ := join_spec field stillStored firstStored
  refine ⟨result, by rw [pushFront, leftStep, ok_bind, rightStep],
    leftRewires.trans rightRewires, lastAfter last (some index) first, ?_⟩
  have absent : some index ∉ none :: ([] ++ order.map some) ++ [none] := by simpa using fresh
  have starts : (order.map some).headD none = first := by
    rw [headD_map_some, chain_first chain]
  have pushed : Path (field.Adjacent result (some index) (lastAfter last (some index) first)) none
      ([] ++ some index :: order.map some) none := by
    refine Path.insert chain absent (leftJoins first last) ?_
    rw [starts]
    exact rightJoins (some index) last
  exact pushed

/-- A node that names the first of a chain comes before it once the first one names the node. -/
theorem setPrev_front {node : ν} (chain : field.Chain nodes first last order)
    (holds : nodes.get? index = some node) (links : field.get node = ⟨none, first⟩)
    (fresh : index ∉ order) :
    ∃ result, field.setPrev nodes (some index) first = .ok result ∧
      field.Rewires [first] nodes result ∧
      field.Chain result (some index) (lastAfter last (some index) first) (index :: order) := by
  obtain ⟨result, step, prevSet⟩ := setPrev_spec field (some index) (chain_head_isSome chain)
  have isFirst : (order.map some).headD none = first := by
    rw [headD_map_some, chain_first chain]
  have notFirst : some index ≠ first := by
    intro same
    rw [chain_first chain] at same
    exact fresh (List.mem_of_head? same.symm)
  refine ⟨result, step, prevSet.rewires, chain.prepend (by simpa using fresh) ⟨rfl, ?_⟩ ⟨?_, ?_⟩ ?_⟩
  · rw [prevSet.elsewhere last notFirst]
    exact leader_eq_some_iff.2 ⟨node, holds, by rw [links]⟩
  · rw [prevSet.followers, isFirst]
    exact follower_eq_some_iff.2 ⟨node, holds, by rw [links]⟩
  · rw [isFirst]
    exact prevSet.there last
  · intro a b adjacent notMissing _ notHead _
    rw [isFirst] at notHead
    refine ⟨?_, ?_⟩
    · rw [prevSet.followers, ← adjacent.after]
      cases a with
      | none => contradiction
      | some _ => rfl
    · rw [prevSet.elsewhere last notHead]
      exact adjacent.before

end Changing

end BoundedCache.ChainField
