import Mathlib.Data.List.Basic
import Mathlib.Data.List.Nodup

/-!
# Paths

Rings, chains and lists with sentinels are all paths: a relation between neighbours leads from a
first node through the inner nodes to a last one. On a ring the two ends are the same node, and a
list without sentinels is a path whose ends are missing nodes. No node occurs twice, except that
the ends may coincide.

Structures are changed by joining two nodes, which drops what came after the one and before the
other. The main statements say what taking a node off a path and putting one onto it need.
-/

namespace BoundedCache

variable {ι : Type} {R S : ι → ι → Prop}

/-! ## Steps -/

/-- Each node is related to the next one, from `first` through `inner` to `last`. -/
def Steps (R : ι → ι → Prop) : ι → List ι → ι → Prop
  | first, [], last => R first last
  | first, next :: rest, last => R first next ∧ Steps R next rest last

theorem steps_append_cons {first middle last : ι} {before after : List ι} :
    Steps R first (before ++ middle :: after) last ↔
      Steps R first before middle ∧ Steps R middle after last := by
  induction before generalizing first with
  | nil => rfl
  | cons head rest inductionHypothesis =>
      simp only [List.cons_append, Steps, inductionHypothesis, and_assoc]

/-- Steps between nodes of a path carry over to a relation that keeps them. -/
theorem Steps.mono {first last : ι} {inner : List ι} (steps : Steps R first inner last)
    (kept : ∀ a ∈ first :: inner, ∀ b ∈ inner ++ [last], R a b → S a b) :
    Steps S first inner last := by
  induction inner generalizing first with
  | nil => exact kept first (by simp) last (by simp) steps
  | cons head rest inductionHypothesis =>
      refine ⟨kept first (by simp) head (by simp) steps.1, inductionHypothesis steps.2 ?_⟩
      intro a aMember b bMember
      exact kept a (List.mem_cons_of_mem _ aMember) b (List.mem_cons_of_mem _ bMember)

theorem Steps.toLast {first last : ι} {inner : List ι} (steps : Steps R first inner last) :
    R (inner.getLastD first) last := by
  induction inner generalizing first with
  | nil => exact steps
  | cons head rest inductionHypothesis =>
      rw [List.getLastD_cons]
      exact inductionHypothesis steps.2

theorem Steps.fromFirst {first last : ι} {inner : List ι} (steps : Steps R first inner last) :
    R first (inner.headD last) := by
  cases inner with
  | nil => exact steps
  | cons head rest => exact steps.1

theorem getLastD_mem (first : ι) (inner : List ι) : inner.getLastD first ∈ first :: inner := by
  induction inner generalizing first with
  | nil => simp
  | cons head rest inductionHypothesis =>
      rw [List.getLastD_cons]
      exact List.mem_cons_of_mem _ (inductionHypothesis head)

theorem headD_mem (inner : List ι) (last : ι) : inner.headD last ∈ inner ++ [last] := by
  cases inner <;> simp

theorem notMem_ends {node first last : ι} {inner : List ι} (notFirst : node ≠ first)
    (notInner : node ∉ inner) (notLast : node ≠ last) : node ∉ first :: inner ++ [last] := by
  simp [notFirst, notInner, notLast]

/-! ## Joining two nodes -/

/-- In `S` the nodes `left` and `right` are neighbours. Of the neighbours in `R`, those are kept
that lose none of their sides to this. -/
structure Joins (R S : ι → ι → Prop) (left right : ι) : Prop where
  joined : S left right
  kept : ∀ {a b}, R a b → a ≠ left → b ≠ right → S a b

/-- Steps that carry over up to the last inner node can end at another node instead. -/
theorem Steps.divert {first last other : ι} {inner : List ι} (steps : Steps R first inner last)
    (starts : (first :: inner).Nodup) (joined : S (inner.getLastD first) other)
    (kept : ∀ a ∈ first :: inner, a ≠ inner.getLastD first → ∀ b ∈ inner, R a b → S a b) :
    Steps S first inner other := by
  induction inner generalizing first with
  | nil => exact joined
  | cons head rest inductionHypothesis =>
      rw [List.getLastD_cons] at joined kept
      have distinct := List.nodup_cons.1 starts
      refine ⟨kept first List.mem_cons_self ?_ head List.mem_cons_self steps.1,
        inductionHypothesis steps.2 distinct.2 joined ?_⟩
      · exact fun same => distinct.1 (same ▸ getLastD_mem head rest)
      · intro a aMember notLast b bMember
        exact kept a (List.mem_cons_of_mem _ aMember) notLast b (List.mem_cons_of_mem _ bMember)

/-- Steps that end before `last` can end at another node instead. -/
theorem Steps.redirectLast {first last other : ι} {inner : List ι}
    (steps : Steps R first inner last) (joins : Joins R S (inner.getLastD first) other)
    (starts : (first :: inner).Nodup) (absent : other ∉ inner) : Steps S first inner other :=
  steps.divert starts joins.joined fun _ _ notLast _ bMember related =>
    joins.kept related notLast fun same => absent (same ▸ bMember)

/-- Steps are kept where no start is `left` and no end is `right`. -/
theorem Steps.keep {first last left right : ι} {inner : List ι}
    (steps : Steps R first inner last) (joins : Joins R S left right)
    (leftAbsent : left ∉ first :: inner) (rightAbsent : right ∉ inner ++ [last]) :
    Steps S first inner last :=
  steps.mono fun _ aMember _ bMember related =>
    joins.kept related (fun same => leftAbsent (same ▸ aMember))
      fun same => rightAbsent (same ▸ bMember)

/-! ## Paths -/

/-- Steps on which no node occurs twice, except that the ends may coincide. -/
structure Path (R : ι → ι → Prop) (first : ι) (inner : List ι) (last : ι) : Prop where
  steps : Steps R first inner last
  starts : (first :: inner).Nodup
  ends : (inner ++ [last]).Nodup

namespace Path

variable {first last node : ι} {inner before after : List ι}

theorem inner_nodup (path : Path R first inner last) : inner.Nodup :=
  (List.nodup_cons.1 path.starts).2

theorem first_notMem (path : Path R first inner last) : first ∉ inner :=
  (List.nodup_cons.1 path.starts).1

theorem last_notMem (path : Path R first inner last) : last ∉ inner := by
  intro member
  exact (List.disjoint_of_nodup_append path.ends) member (by simp)

theorem of_notMem (steps : Steps R first inner last) (distinct : inner.Nodup)
    (firstAbsent : first ∉ inner) (lastAbsent : last ∉ inner) : Path R first inner last where
  steps := steps
  starts := List.nodup_cons.2 ⟨firstAbsent, distinct⟩
  ends := by
    rw [List.nodup_append]
    refine ⟨distinct, by simp, ?_⟩
    intro a aMember b bMember same
    rw [List.mem_singleton.1 bMember] at same
    exact lastAbsent (same ▸ aMember)

theorem mono (path : Path R first inner last)
    (kept : ∀ a ∈ first :: inner, ∀ b ∈ inner ++ [last], R a b → S a b) :
    Path S first inner last :=
  ⟨path.steps.mono kept, path.starts, path.ends⟩

theorem stepTo (path : Path R first (before ++ node :: after) last) :
    R (before.getLastD first) node :=
  (steps_append_cons.1 path.steps).1.toLast

theorem stepFrom (path : Path R first (before ++ node :: after) last) :
    R node (after.headD last) :=
  (steps_append_cons.1 path.steps).2.fromFirst

/-- A ring can be read from any of its nodes. -/
theorem rotate (ring : Path R first (before ++ node :: after) first) :
    Path R node (after ++ first :: before) node := by
  have parts := steps_append_cons.1 ring.steps
  have distinct : (first :: (before ++ node :: after)).Nodup := ring.starts
  refine of_notMem (steps_append_cons.2 ⟨parts.2, parts.1⟩) ?_ ?_ ?_ <;>
    grind

/-- Taking a node off a path: its neighbours are joined. -/
theorem detach (path : Path R first (before ++ node :: after) last)
    (joins : Joins R S (before.getLastD first) (after.headD last)) :
    Path S first (before ++ after) last := by
  have parts := steps_append_cons.1 path.steps
  have starts : (first :: (before ++ node :: after)).Nodup := path.starts
  have ends : ((before ++ node :: after) ++ [last]).Nodup := path.ends
  refine of_notMem ?_ (by grind) (by grind) (by grind)
  have startsBefore : (first :: before).Nodup := by grind
  have leftMember := getLastD_mem first before
  cases after with
  | nil =>
      rw [List.append_nil]
      exact parts.1.redirectLast joins startsBefore (by grind)
  | cons follower rest =>
      rw [List.headD_cons] at joins
      exact steps_append_cons.2
        ⟨parts.1.redirectLast joins startsBefore (by grind),
          parts.2.2.keep joins (by grind) (by grind)⟩

/-- Putting a node onto a path: it is joined to what comes before and to what comes after. -/
theorem insert {T : ι → ι → Prop} (path : Path R first (before ++ after) last)
    (fresh : node ∉ first :: (before ++ after) ++ [last])
    (joinsLeft : Joins R S (before.getLastD first) node)
    (joinsRight : Joins S T node (after.headD last)) :
    Path T first (before ++ node :: after) last := by
  have starts : (first :: (before ++ after)).Nodup := path.starts
  have ends : ((before ++ after) ++ [last]).Nodup := path.ends
  refine of_notMem ?_ (by grind) (by grind) (by grind)
  have startsBefore : (first :: before).Nodup := by grind
  have leftMember := getLastD_mem first before
  have rightMember := headD_mem after last
  rw [steps_append_cons]
  -- the second join touches no step up to the new node, the first one none behind it
  have upToNode : Steps S first before node := by
    cases after with
    | nil =>
        rw [List.append_nil] at path
        exact path.steps.redirectLast joinsLeft startsBefore (by grind)
    | cons follower rest =>
        exact (steps_append_cons.1 path.steps).1.redirectLast joinsLeft startsBefore (by grind)
  refine ⟨upToNode.keep joinsRight (by grind) (by grind), ?_⟩
  cases after with
  | nil => exact joinsRight.joined
  | cons follower rest =>
      rw [List.headD_cons] at joinsRight
      have behind := (steps_append_cons.1 path.steps).2
      exact ⟨joinsRight.joined,
        (behind.keep joinsLeft (by grind) (by grind)).keep joinsRight (by grind) (by grind)⟩

/-- Putting a node in front of a path. -/
theorem prepend (path : Path R first inner last)
    (fresh : node ∉ first :: inner ++ [last]) (left : S first node)
    (right : S node (inner.headD last))
    (kept : ∀ {a b}, R a b → a ≠ first → a ≠ node → b ≠ inner.headD last → b ≠ node → S a b) :
    Path S first (node :: inner) last := by
  have starts : (first :: inner).Nodup := path.starts
  have ends : (inner ++ [last]).Nodup := path.ends
  refine of_notMem ⟨left, ?_⟩ (by grind) (by grind) (by grind)
  cases inner with
  | nil => exact right
  | cons head rest =>
      refine ⟨right, path.steps.2.mono fun a aMember b bMember related => ?_⟩
      apply kept related
      · grind
      · grind
      · rw [List.headD_cons]
        grind
      · grind

/-- The two parts of a ring change places: the left part is closed, the right one is led to the
beginning of the left one, and the ring now begins with the right one. -/
theorem swap {T U : ι → ι → Prop} {left right : List ι}
    (ring : Path R first (left ++ right) first) (someLeft : left ≠ []) (someRight : right ≠ [])
    (closes : Joins R S (left.getLastD first) first)
    (leads : Joins S T (right.getLastD first) (left.headD first))
    (begins : Joins T U first (right.headD first)) : Path U first (right ++ left) first := by
  obtain ⟨head, rest, rfl⟩ := List.exists_cons_of_ne_nil someLeft
  obtain ⟨start, others, rfl⟩ := List.exists_cons_of_ne_nil someRight
  rw [List.getLastD_cons] at closes leads
  rw [List.headD_cons] at leads begins
  have parts := steps_append_cons.1 ring.steps
  have starts : (first :: (head :: rest ++ start :: others)).Nodup := ring.starts
  have leftLast := getLastD_mem head rest
  have rightLast := getLastD_mem start others
  refine of_notMem (steps_append_cons.2 ⟨⟨begins.joined, ?_⟩, ?_⟩) (by grind) (by grind) (by grind)
  · -- no join changes a step of the right part, except that the second one diverts its end
    refine parts.2.divert (by grind) (begins.kept leads.joined (by grind) (by grind)) ?_
    intro a aMember notLast b bMember related
    exact begins.kept (leads.kept (closes.kept related (by grind) (by grind)) notLast (by grind))
      (by grind) (by grind)
  · have closed : Steps S head rest first :=
      parts.1.2.redirectLast closes (by grind) (by grind)
    exact (closed.keep leads (by grind) (by grind)).keep begins (by grind) (by grind)

end Path

end BoundedCache
