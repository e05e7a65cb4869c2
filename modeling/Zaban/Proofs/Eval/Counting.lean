import Zaban.Proofs.Eval.CallDepth
import Zaban.Proofs.Eval.Courses

/-!
# The counter of calls

An evaluator lives longer than one evaluation: a host makes one run after
another with it, and native functions come back to it in the middle of a run.
The counter must therefore be right at every moment and after every end, not
only after a good one. The machine of `Courses` shows it in every state:

* `depth_counts_waiting` — the counter is what it was at the outset plus the
  calls under way, in every state that is reached;
* `depth_le_of_enters`   — where a body is entered, it is within the limit;
* `runs_iff`             — a list of runs, each begun with the counter that the
  last one left, is the same as runs that know nothing of each other.

That an evaluation or a call in the middle of a run leaves the counter as it
found it, is `course_returns` and `calls_return`.
-/

namespace Zaban.Course

-- ----------------------------------------------------------------------------
-- In every state
-- ----------------------------------------------------------------------------

section Steps

variable {host : Host} {limit base : Nat} {m m' m'' : State}

/-- The counter is `base` plus the calls under way. -/
def State.Counts (base : Nat) (m : State) : Prop :=
  m.depth = base + m.waiting.length

/-- The step enters a body: there is one call more under way after it. -/
def State.Enters (host : Host) (limit : Nat) (m m' : State) : Prop :=
  m.step host limit = some m' ∧ m.waiting.length < m'.waiting.length

theorem State.Counts.step (h : m.Counts base) (hStep : m.step host limit = some m') :
    m'.Counts base := by
  unfold State.Counts at h ⊢
  cases State.Step.of_step hStep with
  | act | close | refuse => exact h
  | enter | leave =>
    simp only [List.length_cons] at h ⊢
    omega

theorem depth_counts_waiting (h : m.Counts base) (hReaches : m.Reaches host limit m') :
    m'.Counts base := by
  induction hReaches with
  | refl => exact h
  | tail _ hStep ih => exact ih.step hStep

theorem depth_le_of_enters (h : m.Enters host limit m') : m'.depth ≤ limit := by
  obtain ⟨hStep, hMore⟩ := h
  cases State.Step.of_step hStep with
  | act | close | refuse => exact absurd hMore (Nat.lt_irrefl _)
  | enter f args next waiting depth w body w' hBody hRoom => exact hRoom
  | leave result next waiting depth w =>
    simp only [List.length_cons] at hMore
    omega

end Steps

-- ----------------------------------------------------------------------------
-- One run after another
-- ----------------------------------------------------------------------------

/-- Some runs are made one after another, each with the counter and the world that the one before it
left, and end with the results. -/
inductive Runs (host : Host) (limit : Nat) :
    Nat → World → List (Course Value) → List (Except EvalError Value) → Nat → World → Prop where
  | none (depth : Nat) (w : World) : Runs host limit depth w [] [] depth w
  | next {depth depth' depth'' : Nat} {w w' w'' : World} {run : Course Value}
      {runs : List (Course Value)} {result : Except EvalError Value}
      {results : List (Except EvalError Value)}
      (hFirst : (State.mk run [] depth w).Reaches host limit ⟨.done result, [], depth', w'⟩)
      (hRest : Runs host limit depth' w' runs results depth'' w'') :
      Runs host limit depth w (run :: runs) (result :: results) depth'' w''

/-- What some runs come to one after another, if each of them calls values by `call`. -/
def afresh (call : Caller) : List (Course Value) → World → List (Except EvalError Value) × World
  | [], w => ([], w)
  | run :: runs, w =>
    let (result, w) := (run.outcome call).runIn w
    let (results, w) := afresh call runs w
    (result :: results, w)

section Runs

variable {host : Host} {limit depth depth' : Nat} {w w' : World}

/-- A run ends, with its counter as it was at the outset and with what it comes to. -/
theorem run_iff {run : Course Value} {result : Except EvalError Value} :
    (State.mk run [] depth w).Reaches host limit ⟨.done result, [], depth', w'⟩ ↔
      depth' = depth ∧
        (run.outcome (callIn host limit (limit - depth))).runIn w = (result, w') := by
  have hReturns : Returns host limit depth w run.andThen _ := course_returns run w
  have hEnds := hReturns .done []
  rw [andThen_done] at hEnds
  constructor
  · intro h
    have hSame := hEnds.unique rfl h rfl
    simp only [State.mk.injEq, Course.done.injEq] at hSame
    exact ⟨hSame.2.2.1.symm, Prod.ext hSame.1 hSame.2.2.2⟩
  · rintro ⟨rfl, hOut⟩
    rw [hOut] at hEnds
    exact hEnds

/-- **Runs on one evaluator do not see each other** but for the world. -/
theorem runs_iff {runs : List (Course Value)} {results : List (Except EvalError Value)} :
    Runs host limit depth w runs results depth' w' ↔
      depth' = depth ∧ afresh (callIn host limit (limit - depth)) runs w = (results, w') := by
  induction runs generalizing w results with
  | nil =>
    constructor
    · rintro ⟨⟩
      exact ⟨rfl, rfl⟩
    · rintro ⟨rfl, hOut⟩
      cases hOut
      exact .none _ _
  | cons run runs ih =>
    constructor
    · rintro (_ | ⟨hFirst, hRest⟩)
      obtain ⟨rfl, hOut⟩ := run_iff.mp hFirst
      obtain ⟨rfl, hOuts⟩ := ih.mp hRest
      refine ⟨rfl, ?_⟩
      rw [afresh, hOut]
      simp only [hOuts]
    · rintro ⟨rfl, hOut⟩
      rw [afresh] at hOut
      cases hOut
      exact .next (run_iff.mpr ⟨rfl, rfl⟩) (ih.mpr ⟨rfl, rfl⟩)

end Runs

-- ----------------------------------------------------------------------------
-- All together
-- ----------------------------------------------------------------------------

/-- What the counter is for: it counts, it bounds, and nothing is left of it. -/
structure CallsCounted (host : Host) (limit : Nat) : Prop where
  counts   : ∀ m m' : State, m.waiting = [] → m.Reaches host limit m' →
    m'.depth = m.depth + m'.waiting.length
  enters   : ∀ m m' m'' : State, m.waiting = [] → m.Reaches host limit m' →
    m'.Enters host limit m'' →
    m''.depth = m.depth + m''.waiting.length ∧ m''.depth ≤ limit
  evaluate : ∀ depth w env n, Returns host limit depth w (evaluate env n).andThen
    ((evalNode (callIn host limit (limit - depth)) env n).runIn w)
  call     : ∀ depth w f args, Returns host limit depth w (.call f args)
    ((callIn host limit (limit - depth) f args).runIn w)
  runs     : ∀ depth w runs results depth' w', Runs host limit depth w runs results depth' w' ↔
    depth' = depth ∧ afresh (callIn host limit (limit - depth)) runs w = (results, w')

/--
**The counter of calls is right at every moment and after every end.** For all
native functions, given as courses, and every limit:

* in every state reached from outside, the counter is what it was at the outset
  plus the calls under way; where the body of a closure or a native function is
  entered, it is also within the limit;
* an evaluation and a call, anywhere in a course and with any calls waiting,
  come to a value or an error, and then the counter is what it was before;
* so runs that follow each other on one evaluator, failed ones among them, are
  each as on an evaluator that is new.

A new evaluator, with the scripts of the world as native functions, is the
evaluator itself.
-/
theorem calls_are_counted (host : Host) (limit : Nat) :
    CallsCounted host limit ∧
      (∀ env n, (Course.evaluate env n).outcome (callIn World.scripts limit (limit - 0)) =
        Zaban.evaluate ⟨limit⟩ env n) ∧
      (∀ f args, (Course.call f args .done).outcome (callIn World.scripts limit (limit - 0)) =
        callValue ⟨limit⟩ f args) := by
  have hCounts : ∀ m m' : State, m.waiting = [] → m.Reaches host limit m' →
      m'.depth = m.depth + m'.waiting.length := by
    intro m m' hOutside hReaches
    refine depth_counts_waiting ?_ hReaches
    rw [State.Counts, hOutside, List.length_nil, Nat.add_zero]
  refine ⟨⟨hCounts, ?_, ?_, ?_, ?_⟩, ?_, ?_⟩
  · intro m m' m'' hOutside hReaches hEnters
    exact ⟨hCounts m m'' hOutside (hReaches.tail hEnters.1), depth_le_of_enters hEnters⟩
  · intro depth w env n
    rw [← outcome_evaluate]
    exact course_returns _ w
  · intro depth w f args
    exact calls_return rfl w f args
  · intro depth w runs results depth' w'
    exact runs_iff
  · intro env n
    rw [outcome_evaluate, callIn_scripts]
    rfl
  · intro f args
    rw [callIn_scripts]
    rfl

/-- The only native function evaluates `again()` in frame `0` and takes no notice of how that
ends. -/
def retrying : Host := fun _ id =>
  if id = 0 then
    some fun _ => (Course.evaluate 0 (.call (.var "again") [])).andThen fun _ =>
      .done (.ok (.string "gone on"))
  else none

/-- A root in which `again` calls the native function, and `loop` calls itself. -/
def retryWorld : World :=
  { bareWorld with
    store := ⟨#[⟨[("again", .closure ⟨0, [], .call (.var "retry") [], 0⟩),
      ("loop", .closure ⟨1, [], .call (.var "loop") [], 0⟩), ("retry", .native ⟨0, "retry"⟩)],
      none⟩]⟩
    nextClosure := 2 }

/-- Two runs fail at full depth, one of them inside a native function that goes on, and the third is
as the first. -/
theorem calls_are_counted_retry :
    Runs retrying 3 0 retryWorld
      [Course.evaluate 0 (.call (.var "again") []), Course.evaluate 0 (.call (.var "loop") []),
        Course.evaluate 0 (.call (.var "again") [])]
      [.ok (.string "gone on"), .error (.callDepthExceeded 3), .ok (.string "gone on")] 0
      (afresh (callIn retrying 3 3)
        [Course.evaluate 0 (.call (.var "again") []), Course.evaluate 0 (.call (.var "loop") []),
          Course.evaluate 0 (.call (.var "again") [])] retryWorld).2 := by
  refine ((calls_are_counted retrying 3).1.runs 0 retryWorld _ _ 0 _).mpr ⟨rfl, ?_⟩
  rfl

end Zaban.Course
