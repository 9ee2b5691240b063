/-!
# Reading a list one item at a time

Splitting a line into tokens, finding the references in a text and building
command trees are the same kind of work: items are read from left to right,
what was read is kept in a state, and from time to time something is given
out. A `Transducer` is that: `step` reads one item, `finish` says what is
still owed when the input ends, and either may refuse.

Stating the three readers as transducers gives them one theory. Because the
state after a prefix is all that the rest of the reading depends on, reading
`xs ++ ys` is reading `xs` and then `ys` from there.

## Main results

* `run_append` — reading a concatenation.
* `feed_append` — the same for a prefix, before the end is seen.
* `feed_append_eq_ok_iff`, `run_eq_ok_iff` — a reading without a refusal, taken apart.
* `run_map` — a renaming of items, states and results that every step respects
  is respected by every reading.
-/

namespace MemShell

/-- A reader of `α`s with states `S` that gives out `β`s or refuses with an `ε`. -/
structure Transducer (S α β ε : Type) where
  /-- Reads one item. -/
  step : S → α → Except ε (List β × S)
  /-- What is still given out at the end of the input. -/
  finish : S → Except ε (List β)

namespace Transducer

variable {S α β ε : Type}

/-- Reads a prefix: what was given out so far, and the state reached. -/
def feed (t : Transducer S α β ε) : S → List α → Except ε (List β × S)
  | s, [] => .ok ([], s)
  | s, x :: xs =>
      match t.step s x with
      | .error e => .error e
      | .ok (out, s') =>
          match t.feed s' xs with
          | .error e => .error e
          | .ok (rest, s'') => .ok (out ++ rest, s'')

/-- Reads a whole input from a state. -/
def run (t : Transducer S α β ε) : S → List α → Except ε (List β)
  | s, [] => t.finish s
  | s, x :: xs =>
      match t.step s x with
      | .error e => .error e
      | .ok (out, s') =>
          match t.run s' xs with
          | .error e => .error e
          | .ok rest => .ok (out ++ rest)

@[simp] theorem feed_nil (t : Transducer S α β ε) (s : S) : t.feed s [] = .ok ([], s) :=
  rfl

@[simp] theorem run_nil (t : Transducer S α β ε) (s : S) : t.run s [] = t.finish s :=
  rfl

theorem feed_cons_of_silent {t : Transducer S α β ε} {s s' : S} {x : α}
    (h : t.step s x = .ok ([], s')) (xs : List α) : t.feed s (x :: xs) = t.feed s' xs := by
  simp only [feed, h]
  cases t.feed s' xs <;> rfl

theorem run_cons_of_step {t : Transducer S α β ε} {s s' : S} {x : α} {out : List β}
    (h : t.step s x = .ok (out, s')) (xs : List α) :
    t.run s (x :: xs) = (t.run s' xs).map (out ++ ·) := by
  simp only [run, h]
  cases t.run s' xs <;> rfl

theorem run_cons_of_step_error {t : Transducer S α β ε} {s : S} {x : α} {e : ε}
    (h : t.step s x = .error e) (xs : List α) : t.run s (x :: xs) = .error e := by
  simp only [run, h]

/-- Reading a concatenation is reading its first part and going on from there. -/
theorem run_append (t : Transducer S α β ε) (s : S) (xs ys : List α) :
    t.run s (xs ++ ys) =
      match t.feed s xs with
      | .error e => .error e
      | .ok (out, s') => (t.run s' ys).map (out ++ ·) := by
  induction xs generalizing s with
  | nil =>
      simp only [List.nil_append, feed_nil]
      cases t.run s ys <;> simp [Except.map]
  | cons x xs ih =>
      simp only [List.cons_append, run, feed]
      cases hStep : t.step s x with
      | error e => rfl
      | ok p =>
          obtain ⟨out, s'⟩ := p
          simp only [ih]
          cases hFeed : t.feed s' xs with
          | error e => rfl
          | ok q =>
              obtain ⟨rest, s''⟩ := q
              simp only
              cases t.run s'' ys <;> simp [Except.map]

/-- Reading a longer prefix is reading a shorter one and going on from there. -/
theorem feed_append (t : Transducer S α β ε) (s : S) (xs ys : List α) :
    t.feed s (xs ++ ys) =
      match t.feed s xs with
      | .error e => .error e
      | .ok (out, s') => (t.feed s' ys).map fun p => (out ++ p.1, p.2) := by
  induction xs generalizing s with
  | nil =>
      simp only [List.nil_append, feed_nil]
      cases t.feed s ys <;> simp [Except.map]
  | cons x xs ih =>
      simp only [List.cons_append, feed]
      cases hStep : t.step s x with
      | error e => rfl
      | ok p =>
          obtain ⟨out, s'⟩ := p
          simp only [ih]
          cases hFeed : t.feed s' xs with
          | error e => rfl
          | ok q =>
              obtain ⟨rest, s''⟩ := q
              simp only
              cases t.feed s'' ys <;> simp [Except.map]

/-! ## Prefixes that are read without a refusal -/

theorem feed_append_of_ok {t : Transducer S α β ε} {s s' s'' : S} {xs ys : List α}
    {out rest : List β} (hXs : t.feed s xs = .ok (out, s'))
    (hYs : t.feed s' ys = .ok (rest, s'')) :
    t.feed s (xs ++ ys) = .ok (out ++ rest, s'') := by
  rw [feed_append, hXs]
  show (t.feed s' ys).map _ = _
  rw [hYs]
  rfl

theorem run_append_of_feed {t : Transducer S α β ε} {s s' : S} {xs : List α} {out : List β}
    (hXs : t.feed s xs = .ok (out, s')) (ys : List α) :
    t.run s (xs ++ ys) = (t.run s' ys).map (out ++ ·) := by
  rw [run_append, hXs]

theorem run_of_feed {t : Transducer S α β ε} {s s' : S} {xs : List α} {out : List β}
    (hXs : t.feed s xs = .ok (out, s')) :
    t.run s xs = (t.finish s').map (out ++ ·) := by
  have hRun := run_append_of_feed hXs []
  rw [List.append_nil] at hRun
  exact hRun

/-! ## Readings taken apart -/

theorem feed_cons_eq_ok_iff {t : Transducer S α β ε} {s s'' : S} {x : α} {xs : List α}
    {out : List β} :
    t.feed s (x :: xs) = .ok (out, s'') ↔
      ∃ first s' rest, t.step s x = .ok (first, s') ∧ t.feed s' xs = .ok (rest, s'') ∧
        out = first ++ rest := by
  constructor
  · intro h
    rw [feed] at h
    cases hStep : t.step s x with
    | error e => simp [hStep] at h
    | ok p =>
        obtain ⟨first, s'⟩ := p
        cases hFeed : t.feed s' xs with
        | error e => simp [hStep, hFeed] at h
        | ok q =>
            obtain ⟨rest, s'''⟩ := q
            simp only [hStep, hFeed, Except.ok.injEq, Prod.mk.injEq] at h
            obtain ⟨rfl, rfl⟩ := h
            exact ⟨first, s', rest, rfl, hFeed, rfl⟩
  · rintro ⟨first, s', rest, hStep, hFeed, rfl⟩
    simp [feed, hStep, hFeed]

theorem feed_append_eq_ok_iff {t : Transducer S α β ε} {s s'' : S} {xs ys : List α}
    {out : List β} :
    t.feed s (xs ++ ys) = .ok (out, s'') ↔
      ∃ before s' rest, t.feed s xs = .ok (before, s') ∧ t.feed s' ys = .ok (rest, s'') ∧
        out = before ++ rest := by
  constructor
  · intro h
    rw [feed_append] at h
    cases hXs : t.feed s xs with
    | error e => simp [hXs] at h
    | ok p =>
        obtain ⟨before, s'⟩ := p
        cases hYs : t.feed s' ys with
        | error e => simp [hXs, hYs, Except.map] at h
        | ok q =>
            obtain ⟨rest, s'''⟩ := q
            simp only [hXs, hYs, Except.map, Except.ok.injEq, Prod.mk.injEq] at h
            obtain ⟨rfl, rfl⟩ := h
            exact ⟨before, s', rest, rfl, hYs, rfl⟩
  · rintro ⟨before, s', rest, hXs, hYs, rfl⟩
    exact feed_append_of_ok hXs hYs

/-- A whole input is read if it is read as a prefix and may end there. -/
theorem run_eq_ok_iff {t : Transducer S α β ε} {s : S} {xs : List α} {out : List β} :
    t.run s xs = .ok out ↔
      ∃ before s' rest, t.feed s xs = .ok (before, s') ∧ t.finish s' = .ok rest ∧
        out = before ++ rest := by
  constructor
  · intro h
    have hAppend := t.run_append s xs []
    rw [List.append_nil, h] at hAppend
    cases hXs : t.feed s xs with
    | error e => simp [hXs] at hAppend
    | ok p =>
        obtain ⟨before, s'⟩ := p
        cases hEnd : t.finish s' with
        | error e => simp [hXs, hEnd, Except.map] at hAppend
        | ok rest =>
            simp only [hXs, hEnd, run_nil, Except.map, Except.ok.injEq] at hAppend
            exact ⟨before, s', rest, rfl, hEnd, hAppend⟩
  · rintro ⟨before, s', rest, hXs, hEnd, rfl⟩
    rw [run_of_feed hXs, hEnd]
    rfl

/-! ## Renamings -/

/--
**Readings respect renamings.** Let `g` rename the items, `f` the states and `h`
the results. If one step and the end of the input commute with the renaming, so
does a whole reading, refusals included.
-/
theorem run_map (t : Transducer S α β ε) (f : S → S) (g : α → α) (h : β → β)
    (hStep : ∀ s x, t.step (f s) (g x) = (t.step s x).map fun p => (p.1.map h, f p.2))
    (hFinish : ∀ s, t.finish (f s) = (t.finish s).map (List.map h)) (s : S) (xs : List α) :
    t.run (f s) (xs.map g) = (t.run s xs).map (List.map h) := by
  induction xs generalizing s with
  | nil => exact hFinish s
  | cons x xs ih =>
      simp only [List.map_cons, run, hStep]
      cases t.step s x with
      | error e => rfl
      | ok p =>
          obtain ⟨out, s'⟩ := p
          simp only [Except.map, ih]
          cases t.run s' xs with
          | error e => rfl
          | ok rest => simp

end Transducer

end MemShell
