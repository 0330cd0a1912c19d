import Vilan.Executor.Logged

/-!
# Joins of several tasks

`race` and `settle_all` answer when they are polled again, and several of their tasks can have
settled by then.  They look through their list in its order, so what they answer is the first
of the list and not the first to settle.
-/

namespace Vilan.Executor

open List Option

variable {V : Type*}

/-- What a join answers for a task that ended so. -/
def Outcome.answer : Outcome V → Answer V
  | .value found => .value found
  | .failure cause => .failure cause

namespace Leaf

/-- The tasks a `race` or a `settle_all` is over. -/
def joined : Leaf → List ℕ
  | .allSettledOrAnyFailed nodes => nodes
  | .anySettled nodes => nodes
  | _ => []

/-- Whether a task that ends so decides the join: any end a `race`, a failure a
`settle_all`. -/
def decidedBy : Leaf → Outcome V → Bool
  | .anySettled _, _ => true
  | .allSettledOrAnyFailed _, outcome => outcome.failure?.isSome
  | _, _ => false

end Leaf

/-- A task of the join ended so and decides it. -/
def Decides (log : List (Event V)) (leaf : Leaf) (task : ℕ) (outcome : Outcome V) : Prop :=
  task ∈ leaf.joined ∧ .settled task outcome ∈ log ∧ leaf.decidedBy outcome = true

/-- A task of the join ended so, and it was the first to decide it. -/
def FirstSettled (log : List (Event V)) (leaf : Leaf) (task : ℕ) (outcome : Outcome V) : Prop :=
  ∃ before after, log = before ++ .settled task outcome :: after
    ∧ task ∈ leaf.joined ∧ leaf.decidedBy outcome = true
    ∧ ∀ other outcome', ¬ Decides before leaf other outcome'

/-- A task of the join ended so and decides it, and no task before it in the list does. -/
def FirstListed (log : List (Event V)) (leaf : Leaf) (task : ℕ) (outcome : Outcome V) : Prop :=
  ∃ before after, leaf.joined = before ++ task :: after
    ∧ .settled task outcome ∈ log ∧ leaf.decidedBy outcome = true
    ∧ ∀ other ∈ before, ∀ outcome', ¬ Decides log leaf other outcome'

variable {outcome : Outcome V} {log : List (Event V)} {s : Runtime V}

theorem Outcome.answer_inj {outcome' : Outcome V} :
  outcome.answer = outcome'.answer ↔ outcome = outcome'
  := by
  cases outcome <;> cases outcome' <;> simp [Outcome.answer]

/-- When a task of the join decides it, some task is the first of the list to. -/
theorem Decides.exists_firstListed {leaf : Leaf} {task : ℕ} (h : Decides log leaf task outcome) :
  ∃ task outcome, FirstListed log leaf task outcome
  := by
  suffices hsplit : ∀ tasks : List ℕ, task ∈ tasks → ∃ before first after,
      tasks = before ++ first :: after ∧ (∃ outcome, Decides log leaf first outcome)
        ∧ ∀ other ∈ before, ∀ outcome, ¬ Decides log leaf other outcome by
    obtain ⟨before, first, after, hjoined, ⟨outcome', hdecides⟩, hbefore⟩ := hsplit _ h.1
    exact ⟨first, outcome', before, after, hjoined, hdecides.2.1, hdecides.2.2, hbefore⟩
  intro tasks
  induction tasks with
  | nil => simp
  | cons head tasks ih =>
    intro hmem
    by_cases hhead : ∃ outcome, Decides log leaf head outcome
    · refine ⟨[], head, tasks, rfl, hhead, ?_⟩
      simp
    · rcases mem_cons.mp hmem with rfl | hmem
      · exact absurd ⟨outcome, h⟩ hhead
      · obtain ⟨before, first, after, htasks, hfirst, hbefore⟩ := ih hmem
        refine ⟨head :: before, first, after, by rw [htasks, cons_append], hfirst, ?_⟩
        rw [forall_mem_cons]
        refine ⟨?_, hbefore⟩
        rintro outcome' hdecides
        exact hhead ⟨outcome', hdecides⟩

/-! ### What a poll answers -/

namespace Logged

variable {task : ℕ} {s : Runtime V} {outcome : Outcome V}

section

variable (logged : Logged s)
include logged

theorem settled_iff :
  (s.nodes task).settled = true ↔ ∃ outcome, .settled task outcome ∈ s.log
  := by
  constructor
  · intro hsettled
    obtain ⟨outcome, houtcome⟩ := isSome_iff_exists.mp (logged.ends task hsettled)
    use outcome
    rw [logged.outcomes, houtcome]
  · rintro ⟨outcome, hmem⟩
    rw [logged.outcomes, TaskNode.outcome] at hmem
    cases hsettled : (s.nodes task).settled with
    | true => rfl
    | false =>
      rw [hsettled] at hmem
      contradiction

theorem settledAnswer (hmem : .settled task outcome ∈ s.log) :
  s.settledAnswer task = outcome.answer
  := by
  have hsettled := logged.settled_iff.2 ⟨outcome, hmem⟩
  rw [logged.outcomes, TaskNode.outcome, if_pos hsettled] at hmem
  rw [Runtime.settledAnswer]
  cases hfailure : (s.nodes task).failure with
  | some failure =>
    rw [hfailure, some_inj] at hmem
    subst hmem
    rfl
  | none =>
    cases hvalue : (s.nodes task).value with
    | none =>
      rw [hfailure, hvalue] at hmem
      contradiction
    | some value =>
      rw [hfailure, hvalue] at hmem
      change some (Outcome.value value) = some outcome at hmem
      rw [some_inj] at hmem
      subst hmem
      rfl

/-- A task that settled without a failure has not failed. -/
theorem failure_eq (hmem : .settled task outcome ∈ s.log) :
  (s.nodes task).failure = outcome.failure?
  := by
  have hsettled := logged.settled_iff.2 ⟨outcome, hmem⟩
  rw [logged.outcomes, TaskNode.outcome, if_pos hsettled] at hmem
  cases hfailure : (s.nodes task).failure with
  | some failure =>
    rw [hfailure, some_inj] at hmem
    subst hmem
    rfl
  | none =>
    rw [hfailure, map_eq_some_iff] at hmem
    obtain ⟨value, -, rfl⟩ := hmem
    rfl

/-- The first of the list to decide a join is what the join answers. -/
theorem raceAnswer_eq {nodes : List ℕ}
    (h : FirstListed s.log (.anySettled nodes) task outcome) :
  s.raceAnswer nodes = outcome.answer
  := by
  obtain ⟨before, after, hjoined, hmem, -, hbefore⟩ := h
  change nodes = _ at hjoined
  have hfind : (nodes.find? fun task => (s.nodes task).settled) = some task := by
    rw [find?_eq_some_iff_append]
    refine ⟨logged.settled_iff.2 ⟨outcome, hmem⟩, before, after, hjoined, ?_⟩
    intro other hother
    rw [Bool.not_eq_true', ← Bool.not_eq_true]
    intro hsettled
    obtain ⟨outcome', houtcome'⟩ := logged.settled_iff.1 hsettled
    apply hbefore other hother outcome'
    refine ⟨?_, houtcome', rfl⟩
    change other ∈ nodes
    rw [hjoined]
    apply mem_append_left _ hother
  rw [Runtime.raceAnswer, hfind]
  apply logged.settledAnswer hmem

theorem settleAllAnswer_eq {nodes : List ℕ}
    (h : FirstListed s.log (.allSettledOrAnyFailed nodes) task outcome) :
  s.settleAllAnswer nodes = outcome.answer
  := by
  obtain ⟨before, after, hjoined, hmem, hdecided, hbefore⟩ := h
  change nodes = _ at hjoined
  obtain ⟨failure, hfailure⟩ := isSome_iff_exists.mp hdecided
  have hfind : (nodes.findSome? fun task => (s.nodes task).failure) = some failure := by
    rw [findSome?_eq_some_iff]
    refine ⟨before, task, after, hjoined, ?_, ?_⟩
    · rw [logged.failure_eq hmem, hfailure]
    · intro other hother
      cases hsettled : (s.nodes other).settled with
      | false => apply logged.running other hsettled
      | true =>
        obtain ⟨outcome', houtcome'⟩ := logged.settled_iff.1 hsettled
        rw [logged.failure_eq houtcome', ← not_isSome_iff_eq_none]
        intro hdecides
        apply hbefore other hother outcome'
        refine ⟨?_, houtcome', hdecides⟩
        change other ∈ nodes
        rw [hjoined]
        apply mem_append_left _ hother
  rw [Runtime.settleAllAnswer, hfind]
  cases outcome with
  | value => contradiction
  | failure cause =>
    rw [Outcome.failure?, some_inj] at hfailure
    rw [← hfailure]
    rfl

theorem pollLeaf_eq {id : TaskId} {leaf : Leaf} {answer : Answer V}
    (hready : (s.pollLeaf id leaf).2 = .ready answer) (h : FirstListed s.log leaf task outcome) :
  answer = outcome.answer
  := by
  have hobserved : ∀ nodes, Logged (s.observeAll nodes) := by
    intro nodes
    apply logged.calm (Quiet.observeAll s nodes).toCalm
  have hlog : ∀ nodes, (s.observeAll nodes).log = s.log := by
    intro nodes
    apply (Quiet.observeAll s nodes).log
  cases leaf with
  | anySettled nodes =>
    simp only [Runtime.pollLeaf, Runtime.pollRace] at hready
    split at hready
    · rw [Polled.ready.injEq] at hready
      rw [← hready]
      apply (hobserved nodes).raceAnswer_eq
      rw [hlog]
      apply h
    · contradiction
  | allSettledOrAnyFailed nodes =>
    simp only [Runtime.pollLeaf, Runtime.pollSettleAll] at hready
    split at hready
    · rw [Polled.ready.injEq] at hready
      rw [← hready]
      apply (hobserved nodes).settleAllAnswer_eq
      rw [hlog]
      apply h
    · contradiction
  | _ =>
    obtain ⟨_, _, _, _, hdecided, _⟩ := h
    contradiction

end

end Logged

/-! ### What a run answers -/

/-- Every join answered for the first of its list, as of then. -/
def Answered (log : List (Event V)) : Prop :=
  ∀ before call answer after leaf, log = before ++ .answered call answer :: after →
    .awaited call leaf ∈ before → ∀ task outcome, FirstListed before leaf task outcome →
      answer = outcome.answer

theorem Answered.append (answered : Answered log) {event : Event V}
    (h : ∀ call answer leaf, event = .answered call answer → .awaited call leaf ∈ log →
      ∀ task outcome, FirstListed log leaf task outcome → answer = outcome.answer) :
  Answered (log ++ [event])
  := by
  intro before call answer after leaf hlog hmem
  rcases eq_nil_or_concat after with rfl | ⟨after, final, rfl⟩
  · obtain ⟨rfl, hlast⟩ := append_inj' hlog rfl
    rw [singleton_inj] at hlast
    apply h call answer leaf hlast hmem
  · rw [concat_eq_append, ← cons_append, ← append_assoc] at hlog
    obtain ⟨rfl, -⟩ := append_inj' hlog rfl
    apply answered before call answer after leaf rfl hmem

/-- A leaf future that looks like a join was begun as that join. -/
theorem firstListed_becomes {leaf leaf' : Leaf} {task : ℕ} (hbecomes : leaf.Becomes leaf')
    (h : FirstListed log leaf task outcome) :
  FirstListed log leaf' task outcome
  := by
  cases leaf with
  | anySettled nodes =>
    cases leaf' with
    | anySettled nodes' =>
      have heq : Leaf.anySettled nodes = .anySettled nodes' := hbecomes
      rw [← heq]
      apply h
    | _ => exact absurd hbecomes (by simp [Leaf.Becomes])
  | allSettledOrAnyFailed nodes =>
    cases leaf' with
    | allSettledOrAnyFailed nodes' =>
      have heq : Leaf.allSettledOrAnyFailed nodes = .allSettledOrAnyFailed nodes' := hbecomes
      rw [← heq]
      apply h
    | _ => exact absurd hbecomes (by simp [Leaf.Becomes])
  | _ =>
    obtain ⟨_, _, _, _, hdecided, _⟩ := h
    contradiction

theorem Answered.goes (answered : Answered s.log) (logged : Logged s) {top : Polling V}
    (hmem : top ∈ s.polling) {frames : List (Frame V)} {control : Control V}
    {events : List (Event V)} {calls : ℕ} (hgoes : Goes s top frames control events calls) :
  Answered (s.log ++ events)
  := by
  have hanswers : ∀ call leaf answer, top.control = .leaf call leaf →
      (s.pollLeaf top.id leaf).2 = .ready answer → Answered (s.log ++ [.answered call answer]) := by
    intro call leaf answer hleaf hready
    apply answered.append
    rintro call' answer' begun heq hbegun task outcome hfirst
    rw [Event.answered.injEq] at heq
    obtain ⟨rfl, rfl⟩ := heq
    have hpolled := logged.polling top hmem
    rw [hleaf] at hpolled
    obtain ⟨begun', hbegun', hbecomes⟩ := hpolled
    rw [← logged.awaited _ _ _ hbegun hbegun'] at hbecomes
    apply logged.pollLeaf_eq hready (firstListed_becomes hbecomes hfirst)
  have hother : ∀ event, (∀ call answer, event ≠ .answered call answer) →
      Answered (s.log ++ [event]) := by
    intro event hne
    apply answered.append
    intro call answer leaf heq
    exact absurd heq (hne call answer)
  cases hgoes with
  | fails hleaf hready => apply hanswers _ _ _ hleaf hready
  | answers hleaf hready => apply hanswers _ _ _ hleaf hready
  | drains hleaf hready => apply hanswers _ _ _ hleaf hready
  | runs => rwa [append_nil]
  | catches => rwa [append_nil]
  | raises => rwa [append_nil]
  | leaves => rwa [append_nil]
  | joinBreaks => rwa [append_nil]
  | _ =>
    apply hother
    simp

theorem Answered.moved {s' : Runtime V} (answered : Answered s.log) (logged : Logged s)
    (h : Moved s s') :
  Answered s'.log
  := by
  have hother : ∀ event, (∀ call answer, event ≠ .answered call answer) →
      Answered (s.log ++ [event]) := by
    intro event hne
    apply answered.append
    intro call answer leaf heq
    exact absurd heq (hne call answer)
  cases h with
  | quiet hquiet => rwa [hquiet.log]
  | polled _ _ _ _ hquiet => rwa [hquiet.log]
  | reaped _ heq => rwa [heq]
  | spawned _ hquiet =>
    rw [hquiet.log]
    apply hother
    simp
  | opened hquiet => rwa [hquiet.log]
  | suspended _ _ _ hquiet => rwa [hquiet.log]
  | settled _ _ _ hquiet =>
    rw [hquiet.log]
    apply hother
    simp
  | @gone top rest _ _ _ _ hpolling hgoes hquiet =>
    rw [hquiet.log]
    apply answered.goes logged _ hgoes
    rw [hpolling]
    apply mem_cons_self

theorem Run.answered {actions : List (Action V)} (run : Run actions s) :
  Answered s.log
  := by
  apply (Machine.Run.invariant (P := fun s => Lives s ∧ Logged s ∧ Answered s.log) _ _ run).2.2
  · rintro s rfl
    refine ⟨Lives.new, Logged.new, ?_⟩
    intro before call answer after leaf hlog
    simp [Runtime.new] at hlog
  · rintro s action s' ⟨lives, logged, answered⟩ h
    have hmoved := lives.moved h
    exact ⟨lives.step h, logged.moved lives hmoved, answered.moved logged hmoved⟩

/-- A join whose list had not begun to decide it answers for the task that decided it first
exactly when the first of the list to decide it, when the joining task is polled, ended the
same. -/
theorem join_answers_first_settled_iff {actions : List (Action V)} {s : Runtime V}
    (run : Run actions s) {before during after : List (Event V)} {call : ℕ} {leaf : Leaf}
    {answer : Answer V}
    (hlog : s.log = before ++ .awaited call leaf :: (during ++ .answered call answer :: after))
    (hpending : ∀ task ∈ leaf.joined, ∀ outcome, .settled task outcome ∉ before)
    {task : ℕ} {outcome : Outcome V} (hfirst : FirstSettled during leaf task outcome) :
  answer = outcome.answer
    ↔ ∀ listed outcome', FirstListed during leaf listed outcome' → outcome' = outcome
  := by
  have hseen : ∀ listed outcome', listed ∈ leaf.joined →
      (.settled listed outcome' ∈ before ++ .awaited call leaf :: during
        ↔ .settled listed outcome' ∈ during) := by
    intro listed outcome' hlisted
    rw [mem_append, mem_cons]
    simp [hpending listed hlisted outcome']
  have hdecides : ∀ listed outcome', Decides (before ++ .awaited call leaf :: during) leaf listed
      outcome' ↔ Decides during leaf listed outcome' := by
    intro listed outcome'
    rw [Decides, Decides]
    apply and_congr_right
    intro hlisted
    rw [hseen listed outcome' hlisted]
  have hanswered : ∀ listed outcome', FirstListed during leaf listed outcome' →
      answer = outcome'.answer := by
    intro listed outcome' hlisted
    apply run.answered (before ++ .awaited call leaf :: during) call answer after leaf
    · rw [hlog, append_assoc, cons_append]
    · simp
    · obtain ⟨front, back, hjoined, hmem, hdecided, hfront⟩ := hlisted
      refine ⟨front, back, hjoined, ?_, hdecided, ?_⟩
      · rw [hseen]
        · apply hmem
        · rw [hjoined]
          simp
      · intro other hother outcome''
        rw [hdecides]
        apply hfront other hother
  have hexists : ∃ listed outcome', FirstListed during leaf listed outcome' := by
    obtain ⟨front, back, hduring, hjoined, hdecided, -⟩ := hfirst
    apply Decides.exists_firstListed ⟨hjoined, _, hdecided⟩
    rw [hduring]
    simp
  constructor
  · rintro rfl listed outcome' hlisted
    have := hanswered listed outcome' hlisted
    rw [Outcome.answer_inj] at this
    exact this.symm
  · intro hsame
    obtain ⟨listed, outcome', hlisted⟩ := hexists
    rw [← hsame listed outcome' hlisted]
    apply hanswered listed outcome' hlisted

/-- Two tasks wait for one timer and a third races them; the timer fires, the task that waited
first settles first, and both have settled when the third is polled again. -/
def raceRun (nodes : List ℕ) : List (Action ℕ) :=
  [.timer, .spawn "first" none, .await (.timerWait 0 none false), .go,
    .spawn "second" none, .await (.timerWait 0 none false), .go,
    .spawn "joiner" none, .await (.anySettled nodes), .go,
    .fire 0, .poll, .go, .finish 7, .poll, .go, .finish 8, .poll, .go]

/-- What happens before the race is awaited. -/
def beforeRace : List (Event ℕ) :=
  [.spawned 0 "first" none, .awaited 0 (.timerWait 0 none false), .spawned 1 "second" none,
    .awaited 1 (.timerWait 0 none false), .spawned 2 "joiner" none]

/-- What happens until the race is answered. -/
def duringRace : List (Event ℕ) :=
  [.answered 0 (.verdict true), .settled 0 (.value 7), .answered 1 (.verdict true),
    .settled 1 (.value 8)]

/-- The task that settles first is first in the list. -/
theorem listed_race_answers_first :
  Answer.value 7 = (Outcome.value 7).answer
    ↔ ∀ listed outcome, FirstListed duringRace (.anySettled [0, 1]) listed outcome →
      outcome = .value 7
  := by
  obtain ⟨s, hrun, hlog⟩ : ∃ s, (raceRun [0, 1]).foldlM Runtime.step .new = some s
      ∧ s.log = beforeRace ++ .awaited 2 (.anySettled [0, 1])
        :: (duringRace ++ .answered 2 (.value 7) :: []) := ⟨_, rfl, rfl⟩
  have hfirst : FirstSettled duringRace (.anySettled [0, 1]) 0 (.value 7) := by
    refine ⟨[.answered 0 (.verdict true)], [.answered 1 (.verdict true), .settled 1 (.value 8)],
      rfl, by decide, rfl, ?_⟩
    rintro other outcome ⟨-, hmem, -⟩
    simp at hmem
  refine join_answers_first_settled_iff (Run.of_foldlM hrun) hlog ?_ hfirst
  simp [beforeRace]

/-- The task that settles first is second in the list, and the race answers for the other. -/
theorem race_answers_first_listed :
  ∃ (s : Runtime ℕ) (before during after : List (Event ℕ)) (call task : ℕ) (leaf : Leaf)
    (answer : Answer ℕ) (outcome : Outcome ℕ),
    Run (raceRun [1, 0]) s
      ∧ s.log = before ++ .awaited call leaf :: (during ++ .answered call answer :: after)
      ∧ (∀ task ∈ leaf.joined, ∀ outcome, .settled task outcome ∉ before)
      ∧ FirstSettled during leaf task outcome ∧ answer ≠ outcome.answer
  := by
  obtain ⟨s, hrun, hlog⟩ : ∃ s, (raceRun [1, 0]).foldlM Runtime.step .new = some s
      ∧ s.log = beforeRace ++ .awaited 2 (.anySettled [1, 0])
        :: (duringRace ++ .answered 2 (.value 8) :: []) := ⟨_, rfl, rfl⟩
  refine ⟨s, _, _, _, 2, 0, _, _, .value 7, Run.of_foldlM hrun, hlog, ?_, ?_, ?_⟩
  · simp [beforeRace]
  · refine ⟨[.answered 0 (.verdict true)], [.answered 1 (.verdict true), .settled 1 (.value 8)],
      rfl, by decide, rfl, ?_⟩
    rintro other outcome ⟨-, hmem, -⟩
    simp at hmem
  · decide

end Vilan.Executor
