import BoundedCache.Slab.Basic

/-!
# Steps in a row

A system serves requests one at a time, and each step may meet a fault. `serveAll` serves a whole
history and collects the answers. What one step keeps, a whole history keeps: two systems whose
single steps answer alike answer every history alike.
-/

namespace BoundedCache

/-! ## Steps that succeed -/

@[simp] theorem ok_bind {ε α β : Type} (value : α) (next : α → Except ε β) :
    (Except.ok value >>= next) = next value := rfl

@[simp] theorem pure_eq_ok {ε α : Type} (value : α) :
    (pure value : Except ε α) = .ok value := rfl

theorem exists_of_bind_eq_ok {ε α β : Type} {step : Except ε α} {next : α → Except ε β}
    {result : β} (succeeds : (step >>= next) = .ok result) :
    ∃ value, step = .ok value ∧ next value = .ok result := by
  cases step with
  | error fault => contradiction
  | ok value => exact ⟨value, rfl, succeeds⟩

/-! ## Histories -/

section Histories

variable {σ τ ρ β : Type}

/-- Serves requests one after another and collects the answers. -/
def serveAll (serve : σ → ρ → Checked (σ × β)) : σ → List ρ → Checked (σ × List β)
  | state, [] => .ok (state, [])
  | state, request :: rest => do
      let (state, answer) ← serve state request
      let (state, answers) ← serveAll serve state rest
      return (state, answer :: answers)

theorem serveAll_cons_of_ok {serve : σ → ρ → Checked (σ × β)}
    {state middle final : σ} {request : ρ} {rest : List ρ} {answer : β} {answers : List β}
    (first : serve state request = .ok (middle, answer))
    (others : serveAll serve middle rest = .ok (final, answers)) :
    serveAll serve state (request :: rest) = .ok (final, answer :: answers) := by
  simp [serveAll, first, others]

/-- A history that is served in one go is served in two parts. -/
theorem serveAll_append {serve : σ → ρ → Checked (σ × β)} {middle final : σ}
    {earlier later : List ρ} {firstAnswers lastAnswers : List β} :
    ∀ {state : σ},
      serveAll serve state earlier = .ok (middle, firstAnswers) →
      serveAll serve middle later = .ok (final, lastAnswers) →
        serveAll serve state (earlier ++ later) = .ok (final, firstAnswers ++ lastAnswers) := by
  induction earlier generalizing firstAnswers with
  | nil =>
      intro state first last
      cases first
      simpa using last
  | cons request rest inductionHypothesis =>
      intro state first last
      simp only [serveAll] at first
      cases step : serve state request with
      | error fault =>
          rw [step] at first
          contradiction
      | ok outcome =>
          rw [step, ok_bind] at first
          cases run : serveAll serve outcome.1 rest with
          | error fault =>
              rw [run] at first
              contradiction
          | ok ending =>
              rw [run, ok_bind] at first
              cases first
              exact serveAll_cons_of_ok step (inductionHypothesis run last)

/-- Two systems that answer alike and stay related at every step do so over every history. -/
theorem serveAll_related {left : σ → ρ → Checked (σ × β)} {right : τ → ρ → Checked (τ × β)}
    {Related : σ → τ → Prop}
    (step : ∀ {first second} (request : ρ), Related first second →
      ∃ first' second' answer,
        left first request = .ok (first', answer) ∧
        right second request = .ok (second', answer) ∧ Related first' second')
    (requests : List ρ) :
    ∀ {first second}, Related first second →
      ∃ first' second' answers,
        serveAll left first requests = .ok (first', answers) ∧
        serveAll right second requests = .ok (second', answers) ∧
        Related first' second' := by
  induction requests with
  | nil =>
      intro first second related
      exact ⟨first, second, [], rfl, rfl, related⟩
  | cons request rest inductionHypothesis =>
      intro first second related
      obtain ⟨first', second', answer, leftStep, rightStep, stillRelated⟩ := step request related
      obtain ⟨first'', second'', answers, leftRun, rightRun, finallyRelated⟩ :=
        inductionHypothesis stillRelated
      exact ⟨first'', second'', answer :: answers, serveAll_cons_of_ok leftStep leftRun,
        serveAll_cons_of_ok rightStep rightRun, finallyRelated⟩

/-- What every step keeps holds after every history, and no step meets a fault. -/
theorem serveAll_keeps {serve : σ → ρ → Checked (σ × β)} {Kept : σ → Prop}
    (step : ∀ {state} (request : ρ), Kept state →
      ∃ state' answer, serve state request = .ok (state', answer) ∧ Kept state')
    (requests : List ρ) {state : σ} (kept : Kept state) :
    ∃ state' answers, serveAll serve state requests = .ok (state', answers) ∧ Kept state' := by
  let Related := fun first second : σ => Kept first ∧ first = second
  have stepRelated : ∀ {first second} (request : ρ), Related first second →
      ∃ first' second' answer,
        serve first request = .ok (first', answer) ∧
        serve second request = .ok (second', answer) ∧ Related first' second' := by
    intro first second request related
    obtain ⟨state', answer, served, kept'⟩ := step request related.1
    exact ⟨state', state', answer, served, related.2 ▸ served, kept', rfl⟩
  have start : Related state state := ⟨kept, rfl⟩
  obtain ⟨state', _, answers, run, _, kept', _⟩ := serveAll_related stepRelated requests start
  exact ⟨state', answers, run, kept'⟩

/-- The condition holds of each request of a history in the state in which it is served. -/
def Throughout (serve : σ → ρ → Checked (σ × β)) (Condition : σ → ρ → Prop) : σ → List ρ → Prop
  | _, [] => True
  | state, request :: rest =>
      Condition state request ∧ ∀ next answer, serve state request = .ok (next, answer) →
        Throughout serve Condition next rest

/-- What every step keeps with some measure holds after every history with some measure, and with
the same one if no step of the history could change it. -/
theorem serveAll_keeps_measure {serve : σ → ρ → Checked (σ × β)} {Kept : σ → τ → Prop}
    {Still : σ → ρ → Prop}
    (step : ∀ {state measure} (request : ρ), Kept state measure →
      ∃ state' answer measure', serve state request = .ok (state', answer) ∧
        Kept state' measure' ∧ (Still state request → measure' = measure))
    (requests : List ρ) :
    ∀ {state measure}, Kept state measure →
      ∃ state' answers measure', serveAll serve state requests = .ok (state', answers) ∧
        Kept state' measure' ∧ (Throughout serve Still state requests → measure' = measure) := by
  induction requests with
  | nil =>
      intro state measure kept
      exact ⟨state, [], measure, rfl, kept, fun _ => rfl⟩
  | cons request rest inductionHypothesis =>
      intro state measure kept
      obtain ⟨middle, answer, middleMeasure, served, keptMiddle, still⟩ := step request kept
      obtain ⟨final, answers, finalMeasure, run, keptFinal, others⟩ :=
        inductionHypothesis keptMiddle
      refine ⟨final, answer :: answers, finalMeasure, serveAll_cons_of_ok served run, keptFinal, ?_⟩
      intro throughout
      exact (others (throughout.2 middle answer served)).trans (still throughout.1)

end Histories

end BoundedCache
