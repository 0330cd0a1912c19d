import Mathlib.Tactic

/-!
# Scanners

A scanner takes one token after the other from the front of a buffer, and waits where the buffer
does not hold a whole token.  What it takes does not depend on what follows the token, so that it
does not matter in which chunks the bytes arrive.
-/

/-- What a scanner does with a buffer: it waits for more, it takes a token off the front, or it takes
one and stops for good. -/
inductive Scanner.Next (S B E : Type*) where
  | wait
  | take (state : S) (events : List E) (rest : List B)
  | stop (state : S) (events : List E) (rest : List B)

/-- A scanner: a token is not empty, and is the same whatever follows it. -/
structure Scanner (S B E : Type*) where
  next : S → List B → Scanner.Next S B E
  nil : ∀ state : S, next state [] = .wait
  shorter : ∀ {state : S} {buffer : List B} {state' : S} {events : List E} {rest : List B},
    next state buffer = .take state' events rest → rest.length < buffer.length
  take_append : ∀ {state : S} {buffer : List B} {state' : S} {events : List E} {rest : List B},
    next state buffer = .take state' events rest →
      ∀ more, next state (buffer ++ more) = .take state' events (rest ++ more)
  stop_append : ∀ {state : S} {buffer : List B} {state' : S} {events : List E} {rest : List B},
    next state buffer = .stop state' events rest →
      ∀ more, next state (buffer ++ more) = .stop state' events (rest ++ more)

namespace Scanner

variable {S B E : Type*}

/-- Where a scan stands: its events, its state, what is left of the buffer, and whether it has
stopped. -/
structure Scan (S B E : Type*) where
  events : List E
  state : S
  rest : List B
  stopped : Bool
  deriving DecidableEq, Repr

/-- Earlier events. -/
def Scan.after (events : List E) (scan : Scan S B E) : Scan S B E :=
  { scan with events := events ++ scan.events }

variable (scanner : Scanner S B E)

/-- The loop that takes tokens, at most so many. -/
def loop : ℕ → S → List B → Scan S B E
  | 0, state, buffer => { events := [], state, rest := buffer, stopped := false }
  | fuel + 1, state, buffer =>
      match scanner.next state buffer with
      | .wait => { events := [], state, rest := buffer, stopped := false }
      | .take state events rest => (loop fuel state rest).after events
      | .stop state events rest => { events, state, rest, stopped := true }

/-- Take tokens until the scanner waits or stops. -/
def scan (state : S) (buffer : List B) : Scan S B E :=
  scanner.loop (buffer.length + 1) state buffer

/-- A chunk arrives: a scanner that has stopped takes nothing. -/
def feed (fed : Scan S B E) (chunk : List B) : Scan S B E :=
  if fed.stopped then fed
  else (scanner.scan fed.state (fed.rest ++ chunk)).after fed.events

/-- Chunks arrive one after the other. -/
def feeds (fed : Scan S B E) (chunks : List (List B)) : Scan S B E :=
  chunks.foldl scanner.feed fed

/-- A scanner before its first chunk. -/
def fresh (state : S) : Scan S B E where
  events := []
  state := state
  rest := []
  stopped := false

variable {scanner}

theorem Scan.after_nil (scan : Scan S B E) :
  scan.after [] = scan
  := rfl

theorem Scan.after_after (events more : List E) (scan : Scan S B E) :
  (scan.after more).after events = scan.after (events ++ more)
  := by
  rw [after, after, after, List.append_assoc]

/-- The number of tokens that may be taken does not matter once it exceeds the buffer. -/
theorem loop_eq_loop {fuel fuel' : ℕ} {state : S} {buffer : List B} (lt : buffer.length < fuel)
    (lt' : buffer.length < fuel') :
  scanner.loop fuel state buffer = scanner.loop fuel' state buffer
  := by
  induction fuel generalizing fuel' state buffer with
  | zero => omega
  | succ fuel ih =>
    obtain ⟨fuel', rfl⟩ := Nat.exists_eq_succ_of_ne_zero (Nat.ne_zero_of_lt lt')
    rw [loop, loop]
    cases next : scanner.next state buffer with
    | wait => rfl
    | take state' events rest =>
      have shorter := scanner.shorter next
      have same : scanner.loop fuel state' rest = scanner.loop fuel' state' rest :=
        ih (by omega) (by omega)
      dsimp only
      rw [same]
    | stop state' events rest => rfl

theorem scan_of_wait {state : S} {buffer : List B} (next : scanner.next state buffer = .wait) :
  scanner.scan state buffer = { events := [], state, rest := buffer, stopped := false }
  := by
  rw [scan, loop, next]

theorem scan_of_take {state state' : S} {buffer rest : List B} {events : List E}
    (next : scanner.next state buffer = .take state' events rest) :
  scanner.scan state buffer = (scanner.scan state' rest).after events
  := by
  have shorter := scanner.shorter next
  rw [scan, loop, next, scan]
  dsimp only
  rw [loop_eq_loop (by omega) (Nat.lt_succ_self rest.length)]

theorem scan_of_stop {state state' : S} {buffer rest : List B} {events : List E}
    (next : scanner.next state buffer = .stop state' events rest) :
  scanner.scan state buffer = { events, state := state', rest, stopped := true }
  := by
  rw [scan, loop, next]

/-- A scan of more bytes goes on where the scan of the first stood. -/
theorem scan_append (state : S) (buffer more : List B) :
  scanner.scan state (buffer ++ more)
    = if (scanner.scan state buffer).stopped then
        { scanner.scan state buffer with rest := (scanner.scan state buffer).rest ++ more }
      else
        (scanner.scan (scanner.scan state buffer).state
          ((scanner.scan state buffer).rest ++ more)).after (scanner.scan state buffer).events
  := by
  induction h : buffer.length using Nat.strong_induction_on generalizing state buffer with
  | h _ ih =>
    subst h
    cases next : scanner.next state buffer with
    | wait =>
      rw [scan_of_wait next]
      dsimp only
      rw [if_neg Bool.false_ne_true, Scan.after_nil]
    | take state' events rest =>
      rw [scan_of_take next, scan_of_take (scanner.take_append next more),
        ih rest.length (scanner.shorter next) state' rest rfl]
      cases stopped : (scanner.scan state' rest).stopped with
      | true =>
        have stopped' : ((scanner.scan state' rest).after events).stopped = true := stopped
        rw [if_pos rfl, if_pos stopped']
        rfl
      | false =>
        have running : ((scanner.scan state' rest).after events).stopped ≠ true := by
          rw [Scan.after, stopped]
          exact Bool.false_ne_true
        rw [if_neg Bool.false_ne_true, if_neg running, Scan.after_after]
        rfl
    | stop state' events rest =>
      rw [scan_of_stop next, scan_of_stop (scanner.stop_append next more), if_pos rfl]

/-- What a scanner has seen depends on the bytes that have arrived, not on the chunks. -/
theorem feeds_eq (state : S) (chunks : List (List B)) :
  (scanner.feeds (fresh state) chunks).events = (scanner.scan state chunks.flatten).events ∧
    (scanner.feeds (fresh state) chunks).state = (scanner.scan state chunks.flatten).state ∧
    (scanner.feeds (fresh state) chunks).stopped = (scanner.scan state chunks.flatten).stopped ∧
    ((scanner.scan state chunks.flatten).stopped = false →
      (scanner.feeds (fresh state) chunks).rest = (scanner.scan state chunks.flatten).rest)
  := by
  induction chunks using List.reverseRecOn with
  | nil =>
    rw [List.flatten_nil, scan_of_wait (scanner.nil state)]
    exact ⟨rfl, rfl, rfl, fun _ => rfl⟩
  | append_singleton chunks chunk ih =>
    obtain ⟨events, state_, stopped, rest⟩ := ih
    have whole : scanner.scan state (chunks.flatten ++ chunk) = _ :=
      scan_append state chunks.flatten chunk
    have last : scanner.feeds (fresh state) (chunks ++ [chunk])
        = scanner.feed (scanner.feeds (fresh state) chunks) chunk := by
      rw [feeds, List.foldl_append]
      rfl
    rw [last, feed, List.flatten_append, List.flatten_singleton, whole, stopped]
    cases ended : (scanner.scan state chunks.flatten).stopped with
    | true =>
      rw [if_pos rfl, if_pos rfl]
      refine ⟨events, state_, stopped, ?_⟩
      intro running
      cases ended.symm.trans running
    | false =>
      rw [if_neg Bool.false_ne_true, if_neg Bool.false_ne_true, events, state_, rest ended]
      exact ⟨rfl, rfl, rfl, fun _ => rfl⟩

end Scanner
