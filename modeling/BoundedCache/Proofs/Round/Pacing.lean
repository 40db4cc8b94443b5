import BoundedCache.Proofs.Round.Refinement

/-!
# The pace of a round cache

A round cache that serves requests from the start shows a timely timeline at every moment. So it
never looks for a victim in vain and never passes an entry in the search, its list is sorted by
the times of the visits, and rounds begin with visits only, at equal distances since the last
clear.
-/

namespace BoundedCache

open Round

variable {κ ν : Type}

/-! ## Reading a list -/

/-- The nodes from head to tail were last visited at these times, and no other node is linked. -/
def Round.RoundList.VisitedAt {α : Type} (list : RoundList α) (times : List Nat) : Prop :=
  ∃ order, list.Ordered order ∧
    order.map (fun index => (list.nodes.get? index).map Node.lastVisit) = times.map some

namespace RoundCache

theorem Shows.visitedAt {cache : RoundCache κ ν} {timeline : Timeline κ ν}
    (shows : cache.Shows timeline) : cache.list.VisitedAt (timeline.records.map Record.time) := by
  obtain ⟨cells, layout, records⟩ := shows.laidOut
  refine ⟨cells.map Prod.fst, layout.ordered, ?_⟩
  rw [← records, List.map_map, List.map_map, List.map_map]
  refine List.map_congr_left fun cell member => ?_
  have held := congrArg (Option.map Record.time) (layout.held cell member)
  rw [Option.map_map] at held
  exact held

/-- No search for a victim failed, and none passed an entry. -/
def Untroubled (cache : RoundCache κ ν) : Prop :=
  cache.victimMisses = 0 ∧ cache.list.scanned = 0 ∧ cache.list.walked = 0

theorem Shows.untroubled {cache : RoundCache κ ν} {timeline : Timeline κ ν}
    (shows : cache.Shows timeline) : cache.Untroubled :=
  ⟨congrArg Frame.victimMisses shows.frame, congrArg Frame.scanned shows.frame,
    congrArg Frame.walked shows.frame⟩

/-! ## Histories -/

variable [BEq κ] [Hashable κ]

/-- A cache that shows a timely timeline does so after every history. -/
theorem Shows.serveAll {cache : RoundCache κ ν} {timeline : Timeline κ ν} {start base : Nat}
    (shows : cache.Shows timeline) (timely : timeline.Timely start base)
    (requests : List (CacheRequest κ ν)) :
    ∃ final ending outcomes finalStart finalBase,
      BoundedCache.serveAll RoundCache.serve cache requests = .ok (final, outcomes) ∧
      final.Shows ending ∧ ending.Timely finalStart finalBase ∧
      final.pace = cache.pace.replay requests outcomes ∧
      ((∀ request ∈ requests, request.clears = false) →
        finalStart = start ∧ finalBase = base) := by
  induction requests generalizing cache timeline start base with
  | nil => exact ⟨cache, timeline, [], start, base, rfl, shows, timely, rfl, fun _ => ⟨rfl, rfl⟩⟩
  | cons request rest inductionHypothesis =>
      obtain ⟨served, next, outcome, step, follows, showsNext⟩ := shows.serve timely request
      obtain ⟨final, ending, outcomes, finalStart, finalBase, run, showsEnding, endsTimely, pace,
        unchanged⟩ := inductionHypothesis showsNext (timely.step follows)
      refine ⟨final, ending, outcome :: outcomes, finalStart, finalBase,
        serveAll_cons_of_ok step run, showsEnding, endsTimely, ?_, ?_⟩
      · rw [pace, showsNext.pace, follows.pace, ← shows.pace]
        rfl
      · intro noClears
        have sinceStart := unchanged fun other member =>
          noClears other (List.mem_cons_of_mem _ member)
        have noClear := noClears request List.mem_cons_self
        simpa only [noClear, Bool.false_eq_true, if_false] using sinceStart

/-- Every history of a fresh cache is served, and ends with a timely timeline. -/
theorem serveAll_ofLimit {limit : Nat} (large : minLimit < limit)
    (requests : List (CacheRequest κ ν)) :
    ∃ (fresh final : RoundCache κ ν) (ending : Timeline κ ν)
      (outcomes : List (CacheOutcome κ ν)) (start base : Nat),
      ofLimit limit = .ok fresh ∧
      BoundedCache.serveAll RoundCache.serve fresh requests = .ok (final, outcomes) ∧
      final.Shows ending ∧ ending.Timely start base ∧
      final.pace = Pace.replay { roundLength := roundLengthFor limit } requests outcomes ∧
      ((∀ request ∈ requests, request.clears = false) → start = 0 ∧ base = 0) := by
  obtain ⟨fresh, built, shows⟩ := shows_of_ofLimit (κ := κ) (ν := ν) large
  obtain ⟨final, ending, outcomes, start, base, run⟩ :=
    shows.serveAll (Timeline.timely_empty large) requests
  rw [shows.pace] at run
  exact ⟨fresh, final, ending, outcomes, start, base, built, run⟩

/-! ## The pace of rounds -/

/-- Between two moments without a clear, a round that began leaves its time in the first header. -/
theorem serveAll_first_header {cache final : RoundCache κ ν} {timeline : Timeline κ ν}
    {start base : Nat} {requests : List (CacheRequest κ ν)} {outcomes : List (CacheOutcome κ ν)}
    (shows : cache.Shows timeline) (timely : timeline.Timely start base)
    (noClears : ∀ request ∈ requests, request.clears = false)
    (served : serveAll RoundCache.serve cache requests = .ok (final, outcomes))
    (began : cache.list.rounds < final.list.rounds) :
    final.tick - final.list.headers.first = final.visits := by
  obtain ⟨same, ending, _, finalStart, finalBase, run, showsEnding, endsTimely, _, unchanged⟩ :=
    shows.serveAll timely requests
  rw [served] at run
  cases run
  obtain ⟨rfl, rfl⟩ := unchanged noClears
  have steady := endsTimely.steady
  rw [← showsEnding.pace] at steady
  have before := timely.steady.since
  rw [← shows.pace] at before
  have first := steady.first (Nat.lt_of_le_of_lt before began)
  simp only [pace] at first
  omega

/-- A fresh cache serves every history without a search that fails or passes an entry. Its list is
sorted by the times of the visits, and its headers by the times at which rounds began. Rounds begin
with visits only: since the last clear, the first header tells when the current one began. Without
a clear the time alone tells the numbers of rounds and visits. -/
theorem keeps_pace {limit : Nat} (large : minLimit < limit) (requests : List (CacheRequest κ ν)) :
    ∃ (fresh final : RoundCache κ ν) (outcomes : List (CacheOutcome κ ν)),
      ofLimit limit = .ok fresh ∧
      serveAll RoundCache.serve fresh requests = .ok (final, outcomes) ∧
      final.Untroubled ∧
      (∃ times, final.list.VisitedAt times ∧ times.length = final.size ∧
        times.Pairwise (· > ·) ∧ ∀ time ∈ times, time ≤ final.tick) ∧
      (final.list.headers.last ≤ final.list.headers.middle ∧
        final.list.headers.middle ≤ final.list.headers.first ∧
        final.list.headers.first ≤ final.tick) ∧
      final.pace = Pace.replay { roundLength := roundLengthFor limit } requests outcomes ∧
      (∀ earlier later middle answers, requests = earlier ++ later →
        (∀ request ∈ later, request.clears = false) →
        serveAll RoundCache.serve fresh earlier = .ok (middle, answers) →
        middle.list.rounds < final.list.rounds →
          final.tick - final.list.headers.first = final.visits) ∧
      ((∀ request ∈ requests, request.clears = false) →
        final.list.rounds = final.tick / roundLengthFor limit ∧
        final.visits = final.tick % roundLengthFor limit) := by
  obtain ⟨fresh, final, ending, outcomes, start, base, built, run, shows, timely, pace,
    unchanged⟩ := serveAll_ofLimit large requests
  have steady := timely.steady
  rw [← shows.pace] at steady
  have tick : ending.pace.tick = final.tick := congrArg Pace.tick shows.pace.symm
  refine ⟨fresh, final, outcomes, built, run, shows.untroubled,
    ⟨_, shows.visitedAt, ?_, ?_, ?_⟩, ?_, pace, ?_, ?_⟩
  · rw [List.length_map, shows.size]
  · exact List.pairwise_map.2 timely.falling
  · refine List.forall_mem_map.2 fun record member => ?_
    rw [← tick]
    exact (timely.recent record member).2
  · exact ⟨steady.lastBeforeMiddle, steady.middleBeforeFirst, steady.firstBeforeNow⟩
  · intro earlier later middle answers split noClears served began
    obtain ⟨same, between, moment, others, middleStart, middleBase, sameBuilt, earlierRun,
      showsMiddle, middleTimely, _⟩ := serveAll_ofLimit large earlier
    rw [built] at sameBuilt
    cases sameBuilt
    rw [served] at earlierRun
    cases earlierRun
    obtain ⟨last, _, answersLater, _, _, laterRun, _⟩ := showsMiddle.serveAll middleTimely later
    have whole := serveAll_append served laterRun
    rw [← split, run] at whole
    cases whole
    exact serveAll_first_header showsMiddle middleTimely noClears laterRun began
  · intro noClears
    obtain ⟨rfl, rfl⟩ := unchanged noClears
    have roundLength : final.pace.roundLength = roundLengthFor limit := by
      rw [pace, Pace.replay_roundLength]
    rw [← roundLength]
    exact steady.div_mod

/-- Sixty puts to a cache for at most fifty-one entries. -/
theorem keeps_pace_sixty_puts :
    minLimit < 51 ∧
    ∃ (fresh final : RoundCache Nat Nat) (outcomes : List (CacheOutcome Nat Nat)),
      ofLimit 51 = .ok fresh ∧
      serveAll RoundCache.serve fresh ((List.range 60).map fun key => .put key key) =
        .ok (final, outcomes) ∧
      final.Untroubled ∧
      final.list.rounds = final.tick / roundLengthFor 51 := by
  have noClears : ∀ request ∈ (List.range 60).map fun key : Nat => CacheRequest.put key key,
      request.clears = false := List.forall_mem_map.2 fun _ _ => rfl
  obtain ⟨fresh, final, outcomes, built, run, untroubled, _, _, _, _, withoutClears⟩ :=
    keeps_pace (show minLimit < 51 by decide) ((List.range 60).map fun key : Nat => .put key key)
  exact ⟨by decide, fresh, final, outcomes, built, run, untroubled, (withoutClears noClears).1⟩

end RoundCache

end BoundedCache
