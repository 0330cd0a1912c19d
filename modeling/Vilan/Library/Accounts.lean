import Mathlib.Tactic

/-!
# Accounts

Tickets are opened in the order of the numbers and closed one by one, and a log tells of both.  The
account balances when what is open are exactly the tickets that the log opened and has not closed,
and no ticket was closed twice.
-/

namespace Accounts

open List

variable {E : Type*} (opens closes : E → Option ℕ)

/-- The tickets below `next` were opened, each once; those that are not live were closed once. -/
structure Balanced (log : List E) (next : ℕ) (live : List ℕ) : Prop where
  opened : log.filterMap opens = List.range next
  nodup : live.Nodup
  bound : ∀ ticket ∈ live, ticket < next
  closed : ∀ ticket, (log.filterMap closes).count ticket
    = if ticket < next ∧ ticket ∉ live then 1 else 0

variable {opens closes} {log : List E} {next : ℕ} {live : List ℕ}

theorem balanced_nil :
  Balanced opens closes [] 0 []
  := by
  constructor
  · rfl
  · apply nodup_nil
  · intro ticket mem
    cases mem
  · intro ticket
    rw [if_neg (by omega)]
    rfl

section

variable (balanced : Balanced opens closes log next live)
include balanced

/-- What is live is a matter of membership. -/
theorem Balanced.congr {live' : List ℕ}
    (nodup : live'.Nodup) (same : ∀ ticket, ticket ∈ live' ↔ ticket ∈ live) :
  Balanced opens closes log next live'
  := by
  constructor
  · apply balanced.opened
  · apply nodup
  · intro ticket mem
    apply balanced.bound ticket ((same ticket).mp mem)
  · intro ticket
    rw [balanced.closed]
    simp only [same]

/-- An event that opens and closes nothing. -/
theorem Balanced.other {event : E}
    (no_open : opens event = none) (no_close : closes event = none) :
  Balanced opens closes (log ++ [event]) next live
  := by
  constructor
  · rw [filterMap_append, filterMap_cons_none no_open, filterMap_nil, append_nil, balanced.opened]
  · apply balanced.nodup
  · apply balanced.bound
  · intro ticket
    rw [filterMap_append, filterMap_cons_none no_close, filterMap_nil, append_nil, balanced.closed]

/-- The next ticket is opened. -/
theorem Balanced.opening {event : E}
    (opening : opens event = some next) (no_close : closes event = none) :
  Balanced opens closes (log ++ [event]) (next + 1) (live ++ [next])
  := by
  have fresh : next ∉ live := by
    intro mem
    have := balanced.bound next mem
    omega
  constructor
  · rw [filterMap_append, filterMap_cons_some opening, filterMap_nil, balanced.opened, range_succ]
  · rw [nodup_append_comm]
    apply List.Nodup.cons fresh balanced.nodup
  · intro ticket mem
    rw [mem_append, mem_singleton] at mem
    rcases mem with mem | rfl
    · have := balanced.bound ticket mem
      omega
    · apply Nat.lt_succ_self
  · intro ticket
    rw [filterMap_append, filterMap_cons_none no_close, filterMap_nil, append_nil, balanced.closed]
    congr 1
    rw [mem_append, mem_singleton, eq_iff_iff]
    constructor
    · rintro ⟨lt, gone⟩
      use Nat.lt_succ_of_lt lt
      rintro (mem | rfl)
      · apply gone mem
      · omega
    · rintro ⟨lt, gone⟩
      rw [not_or] at gone
      use by omega, gone.1

/-- A live ticket is closed. -/
theorem Balanced.closing {event : E} {ticket : ℕ}
    (no_open : opens event = none) (closing : closes event = some ticket) (held : ticket ∈ live) :
  Balanced opens closes (log ++ [event]) next (live.erase ticket)
  := by
  constructor
  · rw [filterMap_append, filterMap_cons_none no_open, filterMap_nil, append_nil, balanced.opened]
  · apply balanced.nodup.erase
  · intro other mem
    apply balanced.bound other (mem_of_mem_erase mem)
  · intro other
    have lt := balanced.bound ticket held
    rw [filterMap_append, filterMap_cons_some closing, filterMap_nil,
      count_append, balanced.closed, count_singleton]
    simp only [balanced.nodup.mem_erase_iff, beq_iff_eq]
    by_cases same : ticket = other
    · subst same
      rw [if_neg (by tauto), if_pos rfl, if_pos (by tauto)]
    · rw [if_neg same, Nat.add_zero]
      congr 1
      rw [eq_iff_iff]
      tauto

end

/-- Live tickets are closed one after the other. -/
theorem Balanced.closing_each {events : List E} {tickets : List ℕ}
    (balanced : Balanced opens closes log next live)
    (no_open : ∀ event ∈ events, opens event = none)
    (closing : events.map closes = tickets.map some) (nodup : tickets.Nodup)
    (held : ∀ ticket ∈ tickets, ticket ∈ live) :
  Balanced opens closes (log ++ events) next (live.filter fun ticket => ticket ∉ tickets)
  := by
  induction events generalizing log live tickets with
  | nil =>
    rw [map_nil, eq_comm, map_eq_nil_iff] at closing
    subst closing
    rw [append_nil]
    apply balanced.congr (balanced.nodup.filter _)
    intro ticket
    rw [mem_filter]
    simp only [not_mem_nil, not_false_eq_true, decide_true, and_true]
  | cons event events ih =>
    obtain ⟨ticket, rest, rfl, here, more⟩ := map_eq_cons_iff.mp closing.symm
    rw [nodup_cons] at nodup
    have next_ := balanced.closing (no_open event mem_cons_self) here.symm
      (held ticket mem_cons_self)
    have all := ih next_ (fun other mem => no_open other (mem_cons_of_mem event mem))
      more.symm nodup.2 (by
        intro other mem
        rw [balanced.nodup.mem_erase_iff]
        constructor
        · rintro rfl
          apply nodup.1 mem
        · apply held other (mem_cons_of_mem ticket mem))
    rw [append_assoc] at all
    apply all.congr (balanced.nodup.filter _)
    intro other
    rw [mem_filter, mem_filter, balanced.nodup.mem_erase_iff, decide_eq_true_iff,
      decide_eq_true_iff, mem_cons, not_or]
    tauto

end Accounts
