import Mathlib.Data.List.Basic

/-!
# Readers of a list

A reader takes what it needs off the front of an input.  What it reads is stated as one relation: it
reads some items whatever follows them, and is cut short by any part of them.
-/

namespace Reading

open List

/-- What is left of an input, and how many items have been read. -/
structure Input (α : Type*) where
  rest : List α
  pos : ℕ

/-- A reader that may fail. -/
abbrev Reader (α : Type) (E : Type) (β : Type) :=
  StateT (Input α) (Except E) β

variable {α E β γ : Type}

/-- A failure, with nothing read. -/
def fail (error : E) : Reader α E β :=
  fun _ => .error error

/-- So many items, or a failure at the position where they are missing. -/
def take (short : ℕ → E) (count : ℕ) : Reader α E (List α) :=
  fun input =>
    if count ≤ input.rest.length then
      .ok (input.rest.take count, ⟨input.rest.drop count, input.pos + count⟩)
    else .error (short input.pos)

/-- So many values, one after the other. -/
def many (reader : Reader α E β) : ℕ → Reader α E (List β)
  | 0 => return []
  | count + 1 => do
      let value ← reader
      return value :: (← many reader count)

/-- A value for each of the items. -/
def each (reader : γ → Reader α E β) : List γ → Reader α E (List β)
  | [] => return []
  | item :: items => do
      let value ← reader item
      return value :: (← each reader items)

/-- A reader reads some items from a position as a value: whatever follows is left, and it is cut
short by any part of them. -/
structure Reads (short : ℕ → E) (reader : Reader α E β) (used : List α) (pos : ℕ) (value : β) :
    Prop where
  whole : ∀ more, reader ⟨used ++ more, pos⟩ = .ok (value, ⟨more, pos + used.length⟩)
  short : ∀ part, part <+: used → part ≠ used → ∃ pos', reader ⟨part, pos⟩ = .error (short pos')

variable {short : ℕ → E}

theorem Reads.pure (value : β) (pos : ℕ) : Reads short (pure value : Reader α E β) [] pos value := by
  constructor
  · intro more
    rfl
  · intro part initial ne
    apply absurd (prefix_nil.mp initial) ne

theorem Reads.take {items : List α} {count : ℕ} (length_eq : items.length = count) (pos : ℕ) :
  Reads short (take short count) items pos items
  := by
  constructor
  · intro more
    rw [Reading.take, if_pos]
    · rw [← length_eq, take_left, drop_left]
    · rw [length_append, length_eq]
      omega
  · intro part initial ne
    use pos
    rw [Reading.take, if_neg]
    intro le
    apply ne
    apply initial.eq_of_length
    have le' := initial.length_le
    dsimp only at le
    omega

variable {used used' : List α} {pos : ℕ} {reader : Reader α E β} {value : β}

/-- A part of two lists is a part of the first, or all of it and a part of the second. -/
theorem part_append {part : List α} (initial : part <+: used ++ used') (ne : part ≠ used ++ used') :
  part <+: used ∧ part ≠ used ∨ ∃ part', part = used ++ part' ∧ part' <+: used' ∧ part' ≠ used'
  := by
  obtain ⟨rest, heq⟩ := initial
  obtain ⟨left, rfl, rfl⟩ | ⟨part', rfl, rfl⟩ := append_eq_append_iff.mp heq
  · by_cases all_ : part = part ++ left
    · obtain rfl := append_right_eq_self.mp all_.symm
      right
      refine ⟨[], by simp, nil_prefix, ?_⟩
      rintro rfl
      apply ne
      simp
    · apply Or.inl ⟨prefix_append part left, all_⟩
  · right
    refine ⟨part', rfl, prefix_append part' rest, ?_⟩
    intro all_
    apply ne
    rw [← all_]

theorem Reads.bind {next : β → Reader α E γ} {value' : γ}
    (reads : Reads short reader used pos value)
    (reads' : Reads short (next value) used' (pos + used.length) value') :
  Reads short (reader >>= next) (used ++ used') pos value'
  := by
  constructor
  · intro more
    change (reader ⟨used ++ used' ++ more, pos⟩ >>= fun read => next read.1 read.2) = _
    rw [append_assoc, reads.whole]
    change next value ⟨used' ++ more, pos + used.length⟩ = _
    rw [reads'.whole, length_append, Nat.add_assoc]
  · intro part initial ne
    obtain ⟨first, ne'⟩ | ⟨part', rfl, initial', ne'⟩ := part_append initial ne
    · obtain ⟨pos', error_eq⟩ := reads.short part first ne'
      use pos'
      change (reader ⟨part, pos⟩ >>= fun read => next read.1 read.2) = _
      rw [error_eq]
      rfl
    · obtain ⟨pos', error_eq⟩ := reads'.short part' initial' ne'
      use pos'
      change (reader ⟨used ++ part', pos⟩ >>= fun read => next read.1 read.2) = _
      rw [reads.whole]
      apply error_eq

/-- What comes next reads nothing more. -/
theorem Reads.ends {next : β → Reader α E γ} {value' : γ}
    (reads : Reads short reader used pos value)
    (reads' : Reads short (next value) [] (pos + used.length) value') :
  Reads short (reader >>= next) used pos value'
  := by
  have bound := reads.bind reads'
  rw [append_nil] at bound
  apply bound

theorem Reads.map (reads : Reads short reader used pos value) (f : β → γ) :
  Reads short (f <$> reader) used pos (f value)
  := by
  have bound : Reads short (reader >>= fun value => Pure.pure (f value)) used pos (f value) :=
    reads.ends (Reads.pure (f value) _)
  apply bound

/-- A value after others. -/
theorem Reads.cons {others : Reader α E (List β)} {values : List β}
    (reads : Reads short reader used pos value)
    (reads' : Reads short others used' (pos + used.length) values) :
  Reads short (do let value ← reader; return value :: (← others)) (used ++ used') pos
    (value :: values)
  := by
  apply reads.bind
  apply reads'.map (value :: ·)

/-- Values that are each laid out on their own are read one after the other. -/
theorem Reads.many {δ : Type} {layout : δ → List α} {value : δ → β} {items : List δ}
    (reads : ∀ item ∈ items, ∀ pos, Reads short reader (layout item) pos (value item)) (pos : ℕ) :
  Reads short (many reader items.length) (items.flatMap layout) pos (items.map value)
  := by
  induction items generalizing pos with
  | nil => apply Reads.pure
  | cons item items ih =>
    apply (reads item (mem_cons_self ..) pos).cons
    apply ih
    intro other mem
    apply reads other (mem_cons_of_mem _ mem)

theorem Reads.each {δ : Type} {reader : γ → Reader α E β} {layout : δ → List α} {value : δ → β}
    {kinds : List γ} {items : List δ}
    (reads : List.Forall₂ (fun kind item => ∀ pos,
      Reads short (reader kind) (layout item) pos (value item)) kinds items)
    (pos : ℕ) :
  Reads short (each reader kinds) (items.flatMap layout) pos (items.map value)
  := by
  induction reads generalizing pos with
  | nil => apply Reads.pure
  | cons head _ ih =>
    apply (head pos).cons
    apply ih

end Reading
