import BoundedCache.Proofs.Round.Search
import Mathlib.Data.List.ReduceOption

/-!
# Searches in a row

A search may miss, and the order then stays as it is; but the headers have moved. A round that a
search begins is later than the header it drops, and it begins at the last visit of a linked entry,
so it has reached an entry more than that header had. The three headers together can reach no more
than three times the entries, and few entries are passed between two rounds. This bounds how many
entries are passed in vain, hence how many searches in a row can miss, and whoever keeps searching
takes every entry off the list.
-/

namespace BoundedCache.Round

/-! ## How far the headers have come -/

/-- How many of the times a header has reached. -/
def reached (times : List Nat) (header : Nat) : Nat :=
  times.countP fun time => time ≤ header

/-- A header that moves on to one of the times reaches at least that one more. -/
theorem reached_lt {times : List Nat} {header time : Nat} (member : time ∈ times)
    (later : header < time) : reached times header < reached times time := by
  have monotone : ∀ some : List Nat, reached some header ≤ reached some time := by
    intro some
    apply List.countP_mono_left
    intro other _ reaches
    rw [decide_eq_true_iff] at reaches ⊢
    exact Nat.le_of_lt (Nat.lt_of_le_of_lt reaches later)
  obtain ⟨before, after, rfl⟩ := List.append_of_mem member
  have unreached : reached (time :: after) header = reached after header :=
    List.countP_cons_of_neg (by simpa using later)
  have here : reached (time :: after) time = reached after time + 1 :=
    List.countP_cons_of_pos (by simp)
  calc
    reached (before ++ time :: after) header
      = reached before header + reached (time :: after) header := List.countP_append
    _ < reached before time + reached (time :: after) time := by
      rw [unreached, here]
      exact Nat.lt_of_le_of_lt (Nat.add_le_add (monotone before) (monotone after)) (by omega)
    _ = reached (before ++ time :: after) time := List.countP_append.symm

/-- How many of the times the three headers have reached, each counted by itself. -/
def Headers.reach (times : List Nat) (headers : Headers) : Nat :=
  reached times headers.first + reached times headers.middle + reached times headers.last

theorem Headers.reach_le (times : List Nat) (headers : Headers) :
    headers.reach times ≤ 3 * times.length := by
  have most : ∀ header, reached times header ≤ times.length := fun _ => List.countP_le_length
  have first := most headers.first
  have middle := most headers.middle
  have last := most headers.last
  rw [Headers.reach]
  omega

/-- A round that begins at one of the times, later than the header it drops, is a gain. -/
theorem Headers.reach_push {times : List Nat} {headers : Headers} {time : Nat}
    (member : time ∈ times) (later : headers.last < time) :
    headers.reach times < (headers.push time).reach times := by
  have gained := reached_lt member later
  simp only [Headers.reach, Headers.push]
  omega

/-! ## How far a search has come -/

/-- How far a search has come. Reaching one time more counts as much as the entries that may be
passed until the next round begins. -/
def Watch.progress (times : List Nat) (patience : Nat) (watch : Watch) : Nat :=
  max patience 1 * watch.headers.reach times + min watch.walked (max patience 1 - 1)

theorem Watch.progress_lt (times : List Nat) (patience : Nat) (watch : Watch) :
    watch.progress times patience < max patience 1 * (3 * times.length + 1) := by
  have most := Nat.mul_le_mul_left (max patience 1) (watch.headers.reach_le times)
  rw [Watch.progress, Nat.mul_add, Nat.mul_one]
  omega

/-- Passing an entry that is not due is progress, whether or not a round begins at it. -/
theorem Watch.progress_pass {times : List Nat} {watch : Watch} {time : Nat} (patience : Nat)
    (member : time ∈ times) (notDue : watch.headers.last < time) :
    watch.progress times patience < (watch.pass patience time).progress times patience := by
  rw [Watch.pass]
  by_cases begins : patience ≤ watch.walked + 1
  · have gained := Nat.mul_le_mul_left (max patience 1)
      (Nat.succ_le_of_lt (Headers.reach_push member notDue))
    rw [if_pos begins]
    simp only [Watch.progress]
    rw [Nat.mul_succ] at gained
    omega
  · rw [if_neg begins]
    simp only [Watch.progress]
    omega

namespace RoundList

variable {α : Type} {list : RoundList α} {order passed : List Nat} {patience index : Nat}

/-- What the list keeps in mind between two searches. -/
def watch (list : RoundList α) : Watch :=
  ⟨list.walked, list.headers, list.rounds⟩

theorem mem_timesOf {node : Node α} (holds : list.nodes.get? index = some node)
    (member : index ∈ order) : node.lastVisit ∈ list.timesOf order := by
  rw [timesOf, List.mem_filterMap]
  exact ⟨index, member, by rw [holds, Option.map_some]⟩

/-- Passing nodes of which none is due is as much progress as there are nodes. -/
theorem Ordered.progress_passed (ordered : list.Ordered order.reverse) :
    ∀ {rest : List Nat}, order = passed ++ rest → list.Passes patience passed →
      list.watch.progress (list.timesOf order) patience + passed.length ≤
        (list.watchAfter patience passed).progress (list.timesOf order) patience := by
  induction passed using List.reverseRecOn with
  | nil =>
      intro rest _ _
      exact Nat.le_refl _
  | append_singleton passed index inductionHypothesis =>
      intro rest split passes
      rw [List.append_assoc, List.singleton_append] at split
      have member : index ∈ order := by
        rw [split]
        exact List.mem_append_right passed List.mem_cons_self
      obtain ⟨node, holds⟩ := Option.isSome_iff_exists.1
        (ChainField.chain_isSome ordered.chain (List.mem_reverse.2 member))
      have notDue : (list.watchAfter patience passed).headers.last < node.lastVisit := by
        apply Nat.lt_of_not_le
        intro due
        exact passes.last ⟨node, holds, due⟩
      have earlier := inductionHypothesis split passes.init
      have here := Watch.progress_pass patience (mem_timesOf holds member) notDue
      rw [watchAfter_concat holds, List.length_append, List.length_singleton]
      omega

/-! ## One search -/

/-- Either no entry is due, or one is the first that is. -/
theorem passes_or_due (list : RoundList α) (patience : Nat) (order : List Nat) :
    list.Passes patience order ∨ ∃ passed victim ahead, order = passed ++ victim :: ahead ∧
      list.Passes patience passed ∧ list.DueAfter patience passed victim := by
  induction order using List.reverseRecOn with
  | nil =>
      apply Or.inl
      intro earlier slot later split
      simp at split
  | append_singleton order index inductionHypothesis =>
      rcases inductionHypothesis with passes | ⟨passed, victim, ahead, split, passes, due⟩
      · by_cases due : list.DueAfter patience order index
        · exact Or.inr ⟨order, index, [], rfl, passes, due⟩
        · apply Or.inl
          intro earlier slot later split
          rcases List.eq_nil_or_concat' later with rfl | ⟨others, final, rfl⟩
          · obtain ⟨rfl, same⟩ := List.append_inj' split rfl
            rwa [← (List.singleton_inj.1 same)]
          · rw [← List.cons_append, ← List.append_assoc] at split
            obtain ⟨same, _⟩ := List.append_inj' split rfl
            exact passes earlier slot others same
      · apply Or.inr
        exact ⟨passed, victim, ahead ++ [index], by rw [split]; simp, passes, due⟩

/-- What one search does to the order: it takes one entry off, or moves the headers only. -/
theorem Ordered.search (ordered : list.Ordered order.reverse) (patience : Nat) :
    (list.Passes patience order ∧
      list.selectVictim patience = .ok (list.afterPassing patience order, none)) ∨
    ∃ result victim rest, list.selectVictim patience = .ok (result, some victim) ∧
      result.Ordered rest.reverse ∧ (victim :: rest).Perm order := by
  rcases list.passes_or_due patience order with passes | ⟨passed, victim, ahead, split, passes, due⟩
  · apply Or.inl
    obtain ⟨fuel, search⟩ := ordered.selectVictim_passing (List.append_nil order).symm passes
    exact ⟨passes, search⟩
  · apply Or.inr
    obtain ⟨node, holds, isDue⟩ := due
    have walked := ordered.afterPassing patience passed
    rw [split, List.reverse_append, List.reverse_cons, List.append_assoc,
      List.singleton_append] at walked
    obtain ⟨_, result, _, _, extracts, shorter, _⟩ := walked.extractVictim
    have fetched : (list.afterPassing patience passed).fetch victim = .ok node :=
      fetch_of_get? holds
    have reaches : node.lastVisit ≤ (list.afterPassing patience passed).headers.last := isDue
    obtain ⟨fuel, search⟩ := ordered.selectVictim_passing split passes
    refine ⟨result, victim, ahead ++ passed, ?_, ?_, ?_⟩
    · rw [search, List.head?_cons, RoundList.searchFrom, fetched, ok_bind, if_pos reaches, extracts]
      rfl
    · rwa [List.reverse_append]
    · rw [split]
      exact (List.perm_append_comm.cons victim).trans List.perm_middle.symm

/-! ## Several searches -/

/-- Searches this many times, one after another, and collects what was found. -/
def searches (patience : Nat) :
    Nat → RoundList α → Attempt α (RoundList α × List (Option Nat))
  | 0, list => .ok (list, [])
  | count + 1, list => do
      let (list, found) ← list.selectVictim patience
      let (list, others) ← searches patience count list
      return (list, found :: others)

theorem searches_succ {count : Nat} {middle final : RoundList α} {found : Option Nat}
    {others : List (Option Nat)} (first : list.selectVictim patience = .ok (middle, found))
    (later : searches patience count middle = .ok (final, others)) :
    searches patience (count + 1) list = .ok (final, found :: others) := by
  rw [searches, first, ok_bind]
  simp only [later, ok_bind, pure_eq_ok]

theorem searches_add {earlier later : Nat} {middle final : RoundList α} :
    ∀ {list : RoundList α} {found others : List (Option Nat)},
      searches patience earlier list = .ok (middle, found) →
      searches patience later middle = .ok (final, others) →
        searches patience (earlier + later) list = .ok (final, found ++ others) := by
  induction earlier with
  | zero =>
      intro list found others first second
      cases first
      rwa [Nat.zero_add]
  | succ earlier inductionHypothesis =>
      intro list found others first second
      rw [searches] at first
      obtain ⟨⟨next, victim⟩, step, remaining⟩ := exists_of_bind_eq_ok first
      obtain ⟨⟨stop, rest⟩, run, ending⟩ := exists_of_bind_eq_ok remaining
      cases ending
      rw [Nat.succ_add]
      exact searches_succ step (inductionHypothesis run second)

/-- Searches keep the list in order; what they found and what remains are the entries that there
were. -/
theorem Ordered.searches (patience count : Nat) :
    ∀ {list : RoundList α} {order : List Nat}, list.Ordered order.reverse →
      ∃ result found rest, RoundList.searches patience count list = .ok (result, found) ∧
        result.Ordered rest.reverse ∧ (found.reduceOption ++ rest).Perm order := by
  induction count with
  | zero =>
      intro list order ordered
      exact ⟨list, [], order, rfl, ordered, List.Perm.refl order⟩
  | succ count inductionHypothesis =>
      intro list order ordered
      rcases ordered.search patience with ⟨_, missed⟩ |
        ⟨middle, victim, rest, took, middleOrdered, same⟩
      · obtain ⟨result, found, rest, run, resultOrdered, all⟩ :=
          inductionHypothesis (ordered.afterPassing patience order)
        refine ⟨result, none :: found, rest, searches_succ missed run, resultOrdered, ?_⟩
        rwa [List.reduceOption_cons_of_none]
      · obtain ⟨result, found, others, run, resultOrdered, all⟩ :=
          inductionHypothesis middleOrdered
        refine ⟨result, some victim :: found, others, searches_succ took run, resultOrdered, ?_⟩
        rw [List.reduceOption_cons_of_some, List.cons_append]
        exact (all.cons victim).trans same

/-- Searches find an entry as soon as they would have passed more entries than can be passed in
vain. -/
theorem Ordered.finds_of_progress (count : Nat) :
    ∀ {list : RoundList α}, list.Ordered order.reverse →
      max patience 1 * (3 * (list.timesOf order).length + 1) ≤
        list.watch.progress (list.timesOf order) patience + count * order.length →
      ∃ result found victim, RoundList.searches patience count list = .ok (result, found) ∧
        some victim ∈ found := by
  induction count with
  | zero =>
      intro list _ enough
      have few := list.watch.progress_lt (list.timesOf order) patience
      omega
  | succ count inductionHypothesis =>
      intro list ordered enough
      rcases ordered.search patience with ⟨passes, missed⟩ |
        ⟨middle, victim, rest, took, middleOrdered, _⟩
      · have gained : list.watch.progress (list.timesOf order) patience + order.length ≤
            (list.afterPassing patience order).watch.progress (list.timesOf order) patience :=
          ordered.progress_passed (List.append_nil order).symm passes
        rw [Nat.add_one_mul count order.length] at enough
        have enoughLater : max patience 1 * (3 * (list.timesOf order).length + 1) ≤
            (list.afterPassing patience order).watch.progress (list.timesOf order) patience +
              count * order.length := by omega
        obtain ⟨result, found, victim, run, member⟩ :=
          inductionHypothesis (ordered.afterPassing patience order) enoughLater
        exact ⟨result, none :: found, victim, searches_succ missed run,
          List.mem_cons_of_mem _ member⟩
      · obtain ⟨result, found, _, run, _⟩ := Ordered.searches patience count middleOrdered
        exact ⟨result, some victim :: found, victim, searches_succ took run, List.mem_cons_self⟩

/-- Four searches for each entry that may be passed before a round begins. -/
def enoughSearches (patience : Nat) : Nat :=
  4 * max patience 1

/-- That many searches take an entry off a list that has one. -/
theorem Ordered.finds (ordered : list.Ordered order.reverse) (someEntry : order ≠ [])
    (patience : Nat) :
    ∃ result found rest, RoundList.searches patience (enoughSearches patience) list =
        .ok (result, found) ∧
      result.Ordered rest.reverse ∧ (found.reduceOption ++ rest).Perm order ∧
      found.reduceOption ≠ [] := by
  have positive : 1 ≤ order.length := List.length_pos_of_ne_nil someEntry
  have few : (list.timesOf order).length ≤ order.length := List.length_filterMap_le _ _
  have enough : max patience 1 * (3 * (list.timesOf order).length + 1) ≤
      enoughSearches patience * order.length :=
    calc
      max patience 1 * (3 * (list.timesOf order).length + 1)
        ≤ max patience 1 * (4 * order.length) := Nat.mul_le_mul_left _ (by omega)
      _ = enoughSearches patience * order.length := by
        rw [enoughSearches, Nat.mul_comm 4 (max patience 1), Nat.mul_assoc]
  obtain ⟨result, found, rest, run, resultOrdered, same⟩ :=
    Ordered.searches patience (enoughSearches patience) ordered
  obtain ⟨_, _, victim, sameRun, member⟩ := ordered.finds_of_progress (enoughSearches patience)
    (Nat.le_trans enough (Nat.le_add_left _ _))
  rw [run] at sameRun
  cases sameRun
  exact ⟨result, found, rest, run, resultOrdered, same,
    List.ne_nil_of_mem (List.reduceOption_mem_iff.2 member)⟩

/-- As many searches for each entry take all of them off. -/
theorem Ordered.empties (patience entries : Nat) :
    ∀ {list : RoundList α} {order : List Nat} {count : Nat}, list.Ordered order.reverse →
      order.length ≤ entries → entries * enoughSearches patience ≤ count →
      ∃ result found, RoundList.searches patience count list = .ok (result, found) ∧
        result.Ordered [] ∧ found.reduceOption.Perm order := by
  induction entries with
  | zero =>
      intro list order count ordered noEntries _
      obtain rfl := List.length_eq_zero_iff.1 (Nat.le_zero.1 noEntries)
      obtain ⟨result, found, rest, run, resultOrdered, same⟩ :=
        Ordered.searches patience count ordered
      obtain ⟨none, rfl⟩ := List.append_eq_nil_iff.1 (List.Perm.eq_nil same)
      exact ⟨result, found, run, resultOrdered, none ▸ List.Perm.nil⟩
  | succ entries inductionHypothesis =>
      intro list order count ordered bounded enough
      by_cases noEntry : order = []
      · exact inductionHypothesis ordered (by simp [noEntry])
          (Nat.le_trans (Nat.mul_le_mul_right _ (Nat.le_succ entries)) enough)
      · rw [Nat.add_one_mul entries (enoughSearches patience)] at enough
        obtain ⟨later, rfl⟩ : ∃ later, count = enoughSearches patience + later :=
          Nat.exists_eq_add_of_le (Nat.le_trans (Nat.le_add_left _ _) enough)
        obtain ⟨middle, found, rest, run, middleOrdered, same, someFound⟩ :=
          ordered.finds noEntry patience
        have fewer : rest.length ≤ entries := by
          have lengths := same.length_eq
          have positive := List.length_pos_of_ne_nil someFound
          rw [List.length_append] at lengths
          omega
        have enoughLater : entries * enoughSearches patience ≤ later := by omega
        obtain ⟨result, others, laterRun, resultOrdered, sameRest⟩ :=
          inductionHypothesis middleOrdered fewer enoughLater
        refine ⟨result, found ++ others, searches_add run laterRun, resultOrdered, ?_⟩
        rw [List.reduceOption_append]
        exact (sameRest.append_left _).trans same

/-- What searching again and again does to a list with this order, from tail to head. -/
structure NeverStalls (list : RoundList α) (patience : Nat) (order : List Nat) : Prop where
  /-- However many searches went before, among the next few one finds an entry, if any is left. -/
  finds : ∀ earlier middle past, RoundList.searches patience earlier list = .ok (middle, past) →
    middle.head ≠ none → ∃ result found, ∃ victim ∈ order,
      RoundList.searches patience (enoughSearches patience) middle = .ok (result, found) ∧
      some victim ∈ found
  /-- In the end the list is empty, and every entry was found once. -/
  empties : ∀ count, order.length * enoughSearches patience ≤ count → ∃ result found,
    RoundList.searches patience count list = .ok (result, found) ∧ result.Ordered [] ∧
    found.reduceOption.Perm order

/-- A search for victims cannot stall, whatever the times of the visits, the headers and the
entries passed so far are, and however few or many entries are passed in a round. -/
theorem never_stalls (ordered : list.Ordered order.reverse) (patience : Nat) :
    list.NeverStalls patience order := by
  refine ⟨?finds, ?empties⟩
  case finds =>
      intro earlier middle past run someEntry
      obtain ⟨_, _, rest, sameRun, middleOrdered, same⟩ := Ordered.searches patience earlier ordered
      rw [run] at sameRun
      cases sameRun
      have left : rest ≠ [] := by
        rintro rfl
        exact someEntry (ChainField.chain_first middleOrdered.chain)
      obtain ⟨result, found, others, next, _, all, someFound⟩ := middleOrdered.finds left patience
      obtain ⟨victim, member⟩ := List.exists_mem_of_ne_nil _ someFound
      refine ⟨result, found, victim, ?_, next, List.reduceOption_mem_iff.1 member⟩
      apply same.subset
      apply List.mem_append_right
      exact all.subset (List.mem_append_left _ member)
  case empties =>
      intro count enough
      exact Ordered.empties patience order.length ordered (Nat.le_refl _) enough

/-- One entry, and a round begins at each entry that is passed: three searches miss, which is as
many as can. -/
theorem never_stalls_fourth_search :
    let list : RoundList Nat :=
      { nodes := ⟨#[some ⟨10, 9, {}, true⟩], [], 1⟩
        head := some 0
        tail := some 0
        headers := {}
        walked := 0
        scanned := 0
        rounds := 0 }
    list.Ordered [0].reverse ∧ list.NeverStalls 1 [0] ∧
      (∃ result, searches 1 3 list = .ok (result, [none, none, none])) ∧
      ∃ result found, searches 1 4 list = .ok (result, found) ∧ some 0 ∈ found := by
  intro list
  have ordered : list.Ordered [0].reverse := by
    refine ⟨⟨⟨⟨rfl, rfl⟩, ⟨rfl, rfl⟩⟩, by decide, by decide⟩, ?_⟩
    intro index node holds
    have inBounds : index < 1 := Slab.lt_size_of_get? holds
    match index, inBounds with
    | 0, _ => cases holds; decide
  have never : list.NeverStalls 1 [0] := never_stalls ordered 1
  obtain ⟨result, found, victim, member, run, isFound⟩ :=
    never.finds 0 list [] rfl (by exact Option.some_ne_none 0)
  rw [List.mem_singleton.1 member] at isFound
  exact ⟨ordered, never, ⟨_, rfl⟩, result, found, run, isFound⟩

end RoundList

end BoundedCache.Round
