import BoundedCache.Links.Ring
import BoundedCache.Proofs.Checked
import BoundedCache.Proofs.Links.Path
import BoundedCache.Proofs.Slab

/-!
# Steps on rings

Two stored nodes are adjacent when each names the other as its neighbour. The steps on a ring
succeed when the nodes they name are stored; what they do to a path is stated for paths, so that
it holds of rings and of lists between two sentinels alike. Each step leaves everything but the
links of its own ring as it was, and the links of all nodes that are not on the path.
-/

namespace BoundedCache.LinkField

variable {ν : Type} {field : LinkField ν} {nodes : Slab ν}

/-! ## Neighbours -/

/-- The node in slot `right` follows the one in slot `left`, and both say so. -/
structure Adjacent (field : LinkField ν) (nodes : Slab ν) (left right : Nat) : Prop where
  after : ∃ node, nodes.get? left = some node ∧ (field.get node).next = right
  before : ∃ node, nodes.get? right = some node ∧ (field.get node).prev = left

theorem Adjacent.next_eq {left right : Nat} (adjacent : field.Adjacent nodes left right)
    {node : ν} (holds : nodes.get? left = some node) : (field.get node).next = right := by
  obtain ⟨other, otherHolds, next⟩ := adjacent.after
  rw [holds] at otherHolds
  cases otherHolds
  exact next

theorem Adjacent.prev_eq {left right : Nat} (adjacent : field.Adjacent nodes left right)
    {node : ν} (holds : nodes.get? right = some node) : (field.get node).prev = left := by
  obtain ⟨other, otherHolds, prev⟩ := adjacent.before
  rw [holds] at otherHolds
  cases otherHolds
  exact prev

theorem Adjacent.left_isSome {left right : Nat} (adjacent : field.Adjacent nodes left right) :
    (nodes.get? left).isSome := by
  obtain ⟨node, holds, _⟩ := adjacent.after
  simp [holds]

theorem Adjacent.right_isSome {left right : Nat} (adjacent : field.Adjacent nodes left right) :
    (nodes.get? right).isSome := by
  obtain ⟨node, holds, _⟩ := adjacent.before
  simp [holds]

theorem Adjacent.of_agree {after : Slab ν} {left right : Nat}
    (adjacent : field.Adjacent nodes left right) (agree : Slab.Agree field.get nodes after) :
    field.Adjacent after left right := by
  obtain ⟨⟨leftNode, leftHolds, next⟩, ⟨rightNode, rightHolds, prev⟩⟩ := adjacent
  have leftSeen := agree.seen left
  have rightSeen := agree.seen right
  rw [leftHolds, Option.map_some, Option.map_eq_some_iff] at leftSeen
  rw [rightHolds, Option.map_some, Option.map_eq_some_iff] at rightSeen
  obtain ⟨newLeft, newLeftHolds, leftSame⟩ := leftSeen
  obtain ⟨newRight, newRightHolds, rightSame⟩ := rightSeen
  exact ⟨⟨newLeft, newLeftHolds, leftSame ▸ next⟩, ⟨newRight, newRightHolds, rightSame ▸ prev⟩⟩

theorem path_of_agree {after : Slab ν} {first last : Nat} {inner : List Nat}
    (path : Path (field.Adjacent nodes) first inner last)
    (agree : Slab.Agree field.get nodes after) : Path (field.Adjacent after) first inner last :=
  path.mono fun _ _ _ _ adjacent => adjacent.of_agree agree

theorem path_isSome {first last : Nat} {inner : List Nat}
    (path : Path (field.Adjacent nodes) first inner last) {index : Nat}
    (member : index ∈ inner) : (nodes.get? index).isSome := by
  obtain ⟨before, after, rfl⟩ := List.append_of_mem member
  exact path.stepFrom.left_isSome

theorem path_first_isSome {first last : Nat} {inner : List Nat}
    (path : Path (field.Adjacent nodes) first inner last) : (nodes.get? first).isSome :=
  path.steps.fromFirst.left_isSome

theorem path_last_isSome {first last : Nat} {inner : List Nat}
    (path : Path (field.Adjacent nodes) first inner last) : (nodes.get? last).isSome :=
  path.steps.toLast.right_isSome

/-! ## Neighbours that name each other -/

/-- The neighbours of the node in this slot are stored, and name it back. -/
def Mutual (field : LinkField ν) (nodes : Slab ν) (index : Nat) : Prop :=
  ∃ node before after, nodes.get? index = some node ∧
    nodes.get? (field.get node).prev = some before ∧ (field.get before).next = index ∧
    nodes.get? (field.get node).next = some after ∧ (field.get after).prev = index

theorem mutual_of_adjacent {left index right : Nat} (before : field.Adjacent nodes left index)
    (after : field.Adjacent nodes index right) : field.Mutual nodes index := by
  obtain ⟨leftNode, leftHolds, next⟩ := before.after
  obtain ⟨node, holds, prev⟩ := before.before
  obtain ⟨rightNode, rightHolds, leads⟩ := after.before
  exact ⟨node, leftNode, rightNode, holds, prev ▸ leftHolds, next,
    after.next_eq holds ▸ rightHolds, leads⟩

/-- Every node on a ring and its neighbours name each other. -/
theorem mutual_of_ring {anchor : Nat} {inner : List Nat}
    (ring : Path (field.Adjacent nodes) anchor inner anchor) :
    ∀ index ∈ anchor :: inner, field.Mutual nodes index := by
  refine List.forall_mem_cons.2 ⟨mutual_of_adjacent ring.steps.toLast ring.steps.fromFirst,
    fun index member => ?_⟩
  obtain ⟨before, after, rfl⟩ := List.append_of_mem member
  exact mutual_of_adjacent ring.stepTo ring.stepFrom

/-! ## Filling and emptying slots -/

theorem Adjacent.insert (wellFormed : nodes.WellFormed) (value : ν) {left right : Nat}
    (adjacent : field.Adjacent nodes left right) :
    field.Adjacent (nodes.insert value).1 left right := by
  obtain ⟨⟨leftNode, leftHolds, next⟩, ⟨rightNode, rightHolds, prev⟩⟩ := adjacent
  have vacant := Slab.get?_insert_snd wellFormed value
  have stays : ∀ {index : Nat} {node : ν}, nodes.get? index = some node →
      (nodes.insert value).1.get? index = some node := by
    intro index node holds
    have different : index ≠ (nodes.insert value).2 := by
      rintro rfl
      simp [vacant] at holds
    rw [Slab.get?_insert wellFormed, if_neg different, holds]
  exact ⟨⟨leftNode, stays leftHolds, next⟩, ⟨rightNode, stays rightHolds, prev⟩⟩

theorem path_insert (wellFormed : nodes.WellFormed) (value : ν) {first last : Nat}
    {inner : List Nat} (path : Path (field.Adjacent nodes) first inner last) :
    Path (field.Adjacent (nodes.insert value).1) first inner last :=
  path.mono fun _ _ _ _ adjacent => adjacent.insert wellFormed value

theorem path_erase {index first last : Nat} {inner : List Nat}
    (path : Path (field.Adjacent nodes) first inner last)
    (absent : index ∉ first :: inner ++ [last]) :
    Path (field.Adjacent (nodes.erase index).1) first inner last := by
  refine path.mono fun a aMember b bMember adjacent => ?_
  obtain ⟨⟨aNode, aHolds, next⟩, ⟨bNode, bHolds, prev⟩⟩ := adjacent
  have aDifferent : a ≠ index := by
    rintro rfl
    exact absent (List.mem_append_left _ aMember)
  have bDifferent : b ≠ index := by
    rintro rfl
    exact absent (List.mem_cons_of_mem _ bMember)
  exact ⟨⟨aNode, by rw [Slab.get?_erase, if_neg aDifferent, aHolds], next⟩,
    ⟨bNode, by rw [Slab.get?_erase, if_neg bDifferent, bHolds], prev⟩⟩

/-! ## What a step leaves alone -/

/-- Only links of this field differ, and only nodes in `touched` may have lost a neighbour. -/
structure Rewires (field : LinkField ν) (touched : List Nat) (before after : Slab ν) : Prop where
  agree : ∀ {β : Type} (view : ν → β), (∀ links node, view (field.set links node) = view node) →
    Slab.Agree view before after
  kept : ∀ {left right}, field.Adjacent before left right → left ∉ touched → right ∉ touched →
    field.Adjacent after left right

theorem Rewires.trans {touched : List Nat} {before middle after : Slab ν}
    (first : field.Rewires touched before middle) (second : field.Rewires touched middle after) :
    field.Rewires touched before after where
  agree view ignores := (first.agree view ignores).trans (second.agree view ignores)
  kept adjacent leftFree rightFree :=
    second.kept (first.kept adjacent leftFree rightFree) leftFree rightFree

theorem Rewires.mono {few many : List Nat} {before after : Slab ν}
    (rewires : field.Rewires few before after) (contained : few ⊆ many) :
    field.Rewires many before after where
  agree := rewires.agree
  kept adjacent leftFree rightFree :=
    rewires.kept adjacent (fun member => leftFree (contained member))
      fun member => rightFree (contained member)

theorem Rewires.isSome_get? {touched : List Nat} {before after : Slab ν}
    (rewires : field.Rewires touched before after) (index : Nat) :
    (after.get? index).isSome = (before.get? index).isSome :=
  (rewires.agree (fun _ => ()) fun _ _ => rfl).isSome_get? index

theorem Rewires.wellFormed {touched : List Nat} {before after : Slab ν}
    (rewires : field.Rewires touched before after) (wellFormed : before.WellFormed) :
    after.WellFormed :=
  (rewires.agree (fun _ => ()) fun _ _ => rfl).wellFormed wellFormed

theorem Rewires.path {touched : List Nat} {before after : Slab ν}
    (rewires : field.Rewires touched before after) {first last : Nat} {inner : List Nat}
    (path : Path (field.Adjacent before) first inner last)
    (untouched : ∀ index ∈ first :: inner ++ [last], index ∉ touched) :
    Path (field.Adjacent after) first inner last := by
  refine path.mono fun a aMember b bMember adjacent => rewires.kept adjacent ?_ ?_
  · exact untouched a (List.mem_append_left _ aMember)
  · exact untouched b (List.mem_cons_of_mem _ bMember)

/-! ## Joining -/

theorem next_joined (field : LinkField ν) (left right index : Nat) (node : ν) :
    (field.get (field.joined left right index node)).next =
      if index = left then right else (field.get node).next := by
  simp only [joined]
  split_ifs <;> simp

theorem prev_joined (field : LinkField ν) (left right index : Nat) (node : ν) :
    (field.get (field.joined left right index node)).prev =
      if index = right then left else (field.get node).prev := by
  simp only [joined]
  split_ifs <;> simp

theorem joins_of_join {result : Slab ν} {left right : Nat}
    (step : field.join nodes left right = .ok result)
    (leftHeld : (nodes.get? left).isSome) (rightHeld : (nodes.get? right).isSome) :
    Joins (field.Adjacent nodes) (field.Adjacent result) left right where
  joined := by
    obtain ⟨leftNode, leftHolds⟩ := Option.isSome_iff_exists.1 leftHeld
    obtain ⟨rightNode, rightHolds⟩ := Option.isSome_iff_exists.1 rightHeld
    refine ⟨⟨_, by rw [get?_join field step, leftHolds]; rfl, ?_⟩,
      ⟨_, by rw [get?_join field step, rightHolds]; rfl, ?_⟩⟩
    · rw [next_joined, if_pos rfl]
    · rw [prev_joined, if_pos rfl]
  kept := by
    rintro a b ⟨⟨aNode, aHolds, next⟩, ⟨bNode, bHolds, prev⟩⟩ notLeft notRight
    refine ⟨⟨_, by rw [get?_join field step, aHolds]; rfl, ?_⟩,
      ⟨_, by rw [get?_join field step, bHolds]; rfl, ?_⟩⟩
    · rw [next_joined, if_neg notLeft, next]
    · rw [prev_joined, if_neg notRight, prev]

theorem join_agree {β : Type} {view : ν → β} {result : Slab ν} {left right : Nat}
    (step : field.join nodes left right = .ok result)
    (ignores : ∀ links node, view (field.set links node) = view node) :
    Slab.Agree view nodes result := by
  simp only [join] at step
  cases leftModified : nodes.modify left (field.withNext right) with
  | error fault =>
      rw [leftModified] at step
      contradiction
  | ok middle =>
      rw [leftModified, ok_bind] at step
      exact (Slab.agree_modify leftModified fun node => ignores _ node).trans
        (Slab.agree_modify step fun node => ignores _ node)

/-- Stored nodes can be joined, which touches nothing but the two. -/
theorem join_spec (field : LinkField ν) {nodes : Slab ν} {left right : Nat}
    (leftHeld : (nodes.get? left).isSome)
    (rightHeld : (nodes.get? right).isSome) :
    ∃ result, field.join nodes left right = .ok result ∧
      Joins (field.Adjacent nodes) (field.Adjacent result) left right ∧
      field.Rewires [left, right] nodes result := by
  obtain ⟨result, step⟩ := join_eq_ok field leftHeld rightHeld
  have joins := joins_of_join step leftHeld rightHeld
  refine ⟨result, step, joins, fun view ignores => join_agree step ignores, ?_⟩
  intro a b adjacent aFree bFree
  exact joins.kept adjacent (fun same => aFree (by simp [same]))
    fun same => bFree (by simp [same])

/-! ## Putting a node on and taking it off -/

theorem insertAfter_spec {anchor index last : Nat} {inner : List Nat}
    (path : Path (field.Adjacent nodes) anchor inner last)
    (held : (nodes.get? index).isSome) (fresh : index ∉ anchor :: inner ++ [last]) :
    ∃ result, field.insertAfter nodes anchor index = .ok result ∧
      Path (field.Adjacent result) anchor (index :: inner) last ∧
      field.Rewires (index :: (anchor :: inner ++ [last])) nodes result := by
  have followed := path.steps.fromFirst
  obtain ⟨node, anchorHolds, next⟩ := followed.after
  obtain ⟨middle, firstStep, firstJoins, firstRewires⟩ :=
    join_spec field followed.left_isSome held
  obtain ⟨result, secondStep, secondJoins, secondRewires⟩ :=
    join_spec field ((firstRewires.isSome_get? index).trans held)
      ((firstRewires.isSome_get? _).trans followed.right_isSome)
  have followerMember := headD_mem inner last
  refine ⟨result, ?_, ?_, ?_⟩
  · rw [insertAfter, Slab.fetch_eq_ok_iff.2 anchorHolds, ok_bind, next, firstStep, ok_bind,
      secondStep]
  · have inserted : Path (field.Adjacent result) anchor ([] ++ index :: inner) last :=
      Path.insert path fresh firstJoins secondJoins
    exact inserted
  · exact (firstRewires.mono (by grind)).trans (secondRewires.mono (by grind))

theorem detach_spec {first index last : Nat} {before after : List Nat}
    (path : Path (field.Adjacent nodes) first (before ++ index :: after) last) :
    ∃ result, field.detach nodes index = .ok result ∧
      Path (field.Adjacent result) first (before ++ after) last ∧
      field.Rewires (first :: (before ++ after) ++ [last]) nodes result := by
  obtain ⟨node, holds, next⟩ := path.stepFrom.after
  have prev := path.stepTo.prev_eq holds
  obtain ⟨result, step, joins, rewires⟩ :=
    join_spec field path.stepTo.left_isSome path.stepFrom.right_isSome
  have leftMember := getLastD_mem first before
  have rightMember := headD_mem after last
  refine ⟨result, ?_, path.detach joins, rewires.mono (by grind)⟩
  rw [detach, Slab.fetch_eq_ok_iff.2 holds, ok_bind]
  simp only [prev, next, step]

theorem moveAfter_spec {anchor index last : Nat} {before after : List Nat}
    (path : Path (field.Adjacent nodes) anchor (before ++ index :: after) last) :
    ∃ result, field.moveAfter nodes anchor index = .ok result ∧
      Path (field.Adjacent result) anchor (index :: (before ++ after)) last ∧
      field.Rewires (index :: (anchor :: (before ++ after) ++ [last])) nodes result := by
  have starts : (anchor :: (before ++ index :: after)).Nodup := path.starts
  have ends : ((before ++ index :: after) ++ [last]).Nodup := path.ends
  obtain ⟨middle, detached, without, firstRewires⟩ := detach_spec path
  have held : (middle.get? index).isSome :=
    (firstRewires.isSome_get? index).trans path.stepFrom.left_isSome
  obtain ⟨result, inserted, moved, secondRewires⟩ :=
    insertAfter_spec without held (by grind)
  refine ⟨result, ?_, moved, (firstRewires.mono (by grind)).trans secondRewires⟩
  rw [moveAfter, detached, ok_bind, inserted]

end BoundedCache.LinkField
