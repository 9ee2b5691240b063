import MemShell.Token.Scan

/-!
# Which lines can be split into tokens

The scanner remembers what it needs to give out tokens: the word or the quoted
text read so far, the first half of an operator. To say which lines it refuses
much less is needed. A line is read from left to right in one of three zones,
outside quotes, inside single quotes or inside double quotes; quotes lead from
one zone to another, and inside double quotes a backslash takes a following
double quote or backslash along with it (`Zone.read`). Two things can be wrong
with a line then. Outside quotes ampersands count in pairs, so no maximal run of
them may be odd; and the line may not end inside quotes.

The two descriptions are compared one character at a time. A mode of the scanner
lies in a zone and either waits for a second ampersand or does not; one step of
the scanner moves the zone as the reading does, and refuses exactly where a run
of ampersands ends with one left over (`step_spec`). Whether a run is odd is
followed by one bit (`oddRunFrom`), which is related to the runs themselves by
`oddRunFrom_iff`.

Since nothing is outside quotes any more once a quote stays open, a line never
has to choose between its two errors: a lone ampersand is always met first.

## Main results

* `refusal?_run` — where the scanner fails, in terms of zones.
* `tokenize_iff` — when a line is refused, with which message, and when it is not.
-/

namespace MemShell.Token

/-! ## Reading by zones -/

/-- Where a character stands. -/
inductive Zone where
  | outside
  | single
  | double
deriving DecidableEq, Repr

namespace Zone

/-- The zone after a character that is read by itself. -/
def after : Zone → Char → Zone
  | outside, c => if c = '"' then double else if c = '\'' then single else outside
  | single, c => if c = '\'' then outside else single
  | double, c => if c = '"' then outside else double

/-- The characters of a line with the zones they are read in, and the zone in which
the line ends. -/
def read : Zone → List Char → List (Char × Zone) × Zone
  | z, [] => ([], z)
  | z, [c] => ([(c, z)], z.after c)
  | z, c :: d :: cs =>
      if z = double ∧ c = '\\' ∧ (d = '"' ∨ d = '\\') then
        let rest := read z cs
        ((c, z) :: (d, z) :: rest.1, rest.2)
      else
        let rest := read (z.after c) (d :: cs)
        ((c, z) :: rest.1, rest.2)

end Zone

/-! ## Runs -/

/-- Some maximal run of `a` has an odd length. -/
def HasOddRun {α : Type} (a : α) (xs : List α) : Prop :=
  ∃ before n rest, xs = before ++ List.replicate n a ++ rest ∧ n % 2 = 1 ∧
    before.getLast? ≠ some a ∧ rest.head? ≠ some a

/-- Whether some maximal run is odd, if `odd` says so of the run that is open. -/
def oddRunFrom {α : Type} [DecidableEq α] (a : α) : Bool → List α → Bool
  | odd, [] => odd
  | odd, x :: xs => if x = a then oddRunFrom a (!odd) xs else odd || oddRunFrom a false xs

section Runs

variable {α : Type} {a : α}

/-- A run is as long as the list goes on with `a`. -/
private theorem replicate_append_inj {n k : Nat} {xs ys : List α}
    (hXs : xs.head? ≠ some a) (hYs : ys.head? ≠ some a)
    (h : List.replicate n a ++ xs = List.replicate k a ++ ys) : n = k ∧ xs = ys := by
  induction n generalizing k with
  | zero =>
      cases k with
      | zero => exact ⟨rfl, by simpa using h⟩
      | succ k =>
          rw [List.replicate_zero, List.nil_append, List.replicate_succ] at h
          exact absurd (by rw [h]; rfl) hXs
  | succ n ih =>
      cases k with
      | zero =>
          rw [List.replicate_zero, List.nil_append, List.replicate_succ] at h
          exact absurd (by rw [← h]; rfl) hYs
      | succ k =>
          rw [List.replicate_succ, List.replicate_succ] at h
          obtain ⟨rfl, hRest⟩ := ih (List.cons.inj h).2
          exact ⟨rfl, hRest⟩

private theorem eq_nil_of_getLast? {xs : List α} (h : ∀ x ∈ xs, x = a)
    (hLast : xs.getLast? ≠ some a) : xs = [] := by
  rcases List.eq_nil_or_concat xs with hNil | ⟨front, x, rfl⟩
  · exact hNil
  · rw [h x (by simp)] at hLast
    simp at hLast

private theorem hasOddRun_replicate (k : Nat) :
    HasOddRun a (List.replicate k a) ↔ k % 2 = 1 := by
  constructor
  · rintro ⟨before, n, rest, hEq, hOdd, hBefore, hRest⟩
    have hNil : before = [] := by
      refine eq_nil_of_getLast? (fun x hx => ?_) hBefore
      have hMem : x ∈ List.replicate k a := by
        rw [hEq]
        simp [hx]
      exact List.eq_of_mem_replicate hMem
    subst hNil
    have hSame : List.replicate n a ++ rest = List.replicate k a ++ [] := by
      rw [List.append_nil, hEq, List.nil_append]
    obtain ⟨rfl, -⟩ := replicate_append_inj hRest (by simp) hSame
    exact hOdd
  · intro hOdd
    exact ⟨[], k, [], by simp, hOdd, by simp, by simp⟩

/-- Anything else than `a` ends a run. -/
private theorem hasOddRun_replicate_cons {x : α} (hx : x ≠ a) (k : Nat) (xs : List α) :
    HasOddRun a (List.replicate k a ++ x :: xs) ↔ k % 2 = 1 ∨ HasOddRun a xs := by
  constructor
  · rintro ⟨before, n, rest, hEq, hOdd, hBefore, hRest⟩
    rw [List.append_assoc, List.append_eq_append_iff] at hEq
    rcases hEq with ⟨front, rfl, hRun⟩ | ⟨back, hRun, hTail⟩
    · -- the run starts after the first one
      cases front with
      | nil =>
          obtain ⟨m, rfl⟩ : ∃ m, n = m + 1 := ⟨n - 1, by omega⟩
          rw [List.nil_append, List.replicate_succ] at hRun
          exact absurd (List.cons.inj hRun).1 hx
      | cons y front =>
          obtain ⟨rfl, rfl⟩ := List.cons.inj hRun
          refine .inr ⟨front, n, rest, (List.append_assoc ..).symm, hOdd, ?_, hRest⟩
          intro hLast
          apply hBefore
          rw [List.getLast?_append, List.getLast?_cons, hLast]
          rfl
    · -- the run starts within the first one, so it is that one
      have hNil : before = [] := by
        refine eq_nil_of_getLast? (fun y hy => ?_) hBefore
        have hMem : y ∈ List.replicate k a := by
          rw [hRun]
          simp [hy]
        exact List.eq_of_mem_replicate hMem
      rw [hNil, List.nil_append] at hRun
      rw [← hRun] at hTail
      obtain ⟨rfl, -⟩ := replicate_append_inj hRest (by simpa using hx) hTail
      exact .inl hOdd
  · rintro (hOdd | ⟨before, n, rest, rfl, hOdd, hBefore, hRest⟩)
    · exact ⟨[], k, x :: xs, by simp, hOdd, by simp, by simpa using hx⟩
    · refine ⟨List.replicate k a ++ x :: before, n, rest, by simp, hOdd, ?_, hRest⟩
      cases hLast : before.getLast? with
      | none =>
          rw [List.getLast?_append, List.getLast?_cons, hLast]
          simpa using hx
      | some y =>
          rw [List.getLast?_append, List.getLast?_cons, hLast]
          rw [hLast] at hBefore
          simpa using hBefore

/-- The bit says whether a run is odd, together with `k` characters before it. -/
private theorem oddRunFrom_iff_replicate [DecidableEq α] (xs : List α) :
    ∀ (odd : Bool) (k : Nat), (odd = true ↔ k % 2 = 1) →
      (oddRunFrom a odd xs = true ↔ HasOddRun a (List.replicate k a ++ xs)) := by
  induction xs with
  | nil =>
      intro odd k hOdd
      rw [List.append_nil, hasOddRun_replicate]
      exact hOdd
  | cons x xs ih =>
      intro odd k hOdd
      by_cases hx : x = a
      · subst hx
        have hShift : List.replicate k x ++ x :: xs = List.replicate (k + 1) x ++ xs := by
          rw [List.replicate_succ', List.append_assoc]
          rfl
        rw [hShift, oddRunFrom, if_pos rfl]
        apply ih
        cases odd <;> simp at hOdd ⊢ <;> omega
      · rw [hasOddRun_replicate_cons hx, oddRunFrom, if_neg hx, Bool.or_eq_true, hOdd,
          ih false 0 (by simp)]
        rfl

theorem oddRunFrom_iff [DecidableEq α] (xs : List α) :
    oddRunFrom a false xs = true ↔ HasOddRun a xs :=
  oddRunFrom_iff_replicate xs false 0 (by simp)

end Runs

/-! ## The scanner's modes lie in zones -/

open Scan

/-- The zone of a mode. After a backslash in double quotes the next character has
to be seen first. -/
def zoneOf : Mode → Option Zone
  | .quoted _ .single _ => some .single
  | .quoted _ .double _ => some .double
  | .escape .. => none
  | _ => some .outside

/-- Whether a mode waits for a second ampersand. -/
def isWaiting : Mode → Bool
  | .ampersand => true
  | _ => false

/-- A step that leads to the zone after `c`, and waits after a single ampersand. -/
def LeadsTo (z : Zone) (c : Char) (next : List Token × Mode) : Prop :=
  zoneOf next.2 = some (z.after c) ∧ isWaiting next.2 = decide ((c, z) = ('&', .outside))

/-- A mode outside quotes that waits for nothing, after an ordinary character. -/
private theorem leadsTo_ordinary {c : Char} (hDouble : c ≠ '"') (hSingle : c ≠ '\'')
    (hAmpersand : c ≠ '&') {next : List Token × Mode} (hZone : zoneOf next.2 = some .outside)
    (hWaiting : isWaiting next.2 = false) : LeadsTo .outside c next := by
  refine ⟨?_, ?_⟩
  · rw [hZone]
    simp [Zone.after, hDouble, hSingle]
  · rw [hWaiting]
    simp [hAmpersand]

private theorem quoteOf?_ordinary {c : Char} (hDouble : c ≠ '"') (hSingle : c ≠ '\'') :
    quoteOf? c = none := by
  simp [quoteOf?, hDouble, hSingle]

private theorem leadsTo_start (c : Char) : LeadsTo .outside c (start c) := by
  by_cases hDouble : c = '"'
  · subst hDouble
    exact ⟨rfl, rfl⟩
  by_cases hSingle : c = '\''
  · subst hSingle
    exact ⟨rfl, rfl⟩
  by_cases hAmpersand : c = '&'
  · subst hAmpersand
    exact ⟨rfl, rfl⟩
  unfold start
  rw [quoteOf?_ordinary hDouble hSingle, if_neg hAmpersand]
  split
  · exact leadsTo_ordinary hDouble hSingle hAmpersand rfl rfl
  split
  · exact leadsTo_ordinary hDouble hSingle hAmpersand rfl rfl
  split
  · exact leadsTo_ordinary hDouble hSingle hAmpersand rfl rfl
  split
  · exact leadsTo_ordinary hDouble hSingle hAmpersand rfl rfl
  · exact leadsTo_ordinary hDouble hSingle hAmpersand rfl rfl

/-- **One step of the scanner** is one step of the reading. It is refused exactly if
the mode waits for an ampersand and something else comes. -/
theorem step_spec {m : Mode} {z : Zone} (hZone : zoneOf m = some z) {c : Char}
    (hPlain : ¬ (z = .double ∧ c = '\\')) :
    (isWaiting m = true ∧ c ≠ '&' ∧ Scan.step m c = .error .loneAmpersand) ∨
      (isWaiting m = true ∧ c = '&' ∧ z = .outside ∧ ∃ out, Scan.step m c = .ok (out, .idle)) ∨
      (isWaiting m = false ∧ ∃ next, Scan.step m c = .ok next ∧ LeadsTo z c next) := by
  cases m with
  | idle =>
      obtain rfl := Option.some.inj hZone
      exact .inr (.inr ⟨rfl, _, rfl, leadsTo_start c⟩)
  | bar =>
      obtain rfl := Option.some.inj hZone
      refine .inr (.inr ⟨rfl, _, rfl, ?_⟩)
      by_cases hBar : c = '|'
      · subst hBar
        exact ⟨rfl, rfl⟩
      · rw [if_neg hBar]
        exact leadsTo_start c
  | ampersand =>
      obtain rfl := Option.some.inj hZone
      by_cases hAmpersand : c = '&'
      · exact .inr (.inl ⟨rfl, hAmpersand, rfl, _, if_pos hAmpersand⟩)
      · exact .inl ⟨rfl, hAmpersand, if_neg hAmpersand⟩
  | angle =>
      obtain rfl := Option.some.inj hZone
      refine .inr (.inr ⟨rfl, _, rfl, ?_⟩)
      by_cases hAngle : c = '>'
      · subst hAngle
        exact ⟨rfl, rfl⟩
      · rw [if_neg hAngle]
        exact leadsTo_start c
  | word read =>
      obtain rfl := Option.some.inj hZone
      refine .inr (.inr ⟨rfl, ?_⟩)
      by_cases hEnds : (Text.isBlank c || isOperatorChar c) = true
      · exact ⟨_, if_pos hEnds, leadsTo_start c⟩
      · have hAmpersand : c ≠ '&' := by
          rintro rfl
          exact hEnds rfl
        rw [Scan.step, if_neg hEnds]
        by_cases hDouble : c = '"'
        · subst hDouble
          exact ⟨_, rfl, rfl, rfl⟩
        by_cases hSingle : c = '\''
        · subst hSingle
          exact ⟨_, rfl, rfl, rfl⟩
        rw [quoteOf?_ordinary hDouble hSingle]
        exact ⟨_, rfl, leadsTo_ordinary hDouble hSingle hAmpersand rfl rfl⟩
  | quoted inWord q read =>
      refine .inr (.inr ⟨rfl, ?_⟩)
      rw [Scan.step]
      by_cases hMark : c = q.mark
      · subst hMark
        rw [if_pos rfl]
        cases inWord <;> cases q <;> obtain rfl := Option.some.inj hZone <;>
          exact ⟨_, rfl, rfl, rfl⟩
      · rw [if_neg hMark]
        cases q with
        | single =>
            obtain rfl := Option.some.inj hZone
            rw [if_neg (by simp)]
            refine ⟨_, rfl, ?_, by simp [isWaiting]⟩
            have hSingle : c ≠ '\'' := hMark
            simp [zoneOf, Zone.after, hSingle]
        | double =>
            obtain rfl := Option.some.inj hZone
            have hBackslash : c ≠ '\\' := fun h => hPlain ⟨rfl, h⟩
            rw [if_neg (by simp [hBackslash])]
            refine ⟨_, rfl, ?_, by simp [isWaiting]⟩
            have hDouble : c ≠ '"' := hMark
            simp [zoneOf, Zone.after, hDouble]
  | escape inWord read => cases hZone

/-! ## Whole lines -/

/-- Why a line was refused, if it was. -/
def refusal? : Except LexError (List Token) → Option LexError
  | .error e => some e
  | .ok _ => none

/-- What a reading says about its line; `odd` is for a run that is open. -/
def verdict (odd : Bool) (r : List (Char × Zone) × Zone) : Option LexError :=
  if oddRunFrom ('&', .outside) odd r.1 then some .loneAmpersand
  else if r.2 = .outside then none
  else some .openQuote

private theorem verdict_ampersand (odd : Bool) (xs : List (Char × Zone)) (z : Zone) :
    verdict odd (('&', .outside) :: xs, z) = verdict (!odd) (xs, z) := by
  simp [verdict, oddRunFrom]

private theorem verdict_other {x : Char × Zone} (hx : x ≠ ('&', .outside)) (odd : Bool)
    (xs : List (Char × Zone)) (z : Zone) :
    verdict odd (x :: xs, z) = if odd then some .loneAmpersand else verdict false (xs, z) := by
  cases odd <;> simp [verdict, oddRunFrom, hx]

private theorem refusal?_run_cons {m m' : Mode} {c : Char} {out : List Token}
    (h : Scan.step m c = .ok (out, m')) (cs : List Char) :
    refusal? (scanner.run m (c :: cs)) = refusal? (scanner.run m' cs) := by
  have hStep : scanner.step m c = .ok (out, m') := h
  rw [Transducer.run_cons_of_step hStep]
  cases scanner.run m' cs <;> rfl

/-- If the rest of a line fails as its reading says, so does the line. -/
private theorem refusal?_run_step {m : Mode} {z : Zone} (hZone : zoneOf m = some z) {c : Char}
    (hPlain : ¬ (z = .double ∧ c = '\\')) {cs : List Char} {r : List (Char × Zone) × Zone}
    (hRest : ∀ m', zoneOf m' = some (z.after c) →
      refusal? (scanner.run m' cs) = verdict (isWaiting m') r) :
    refusal? (scanner.run m (c :: cs)) = verdict (isWaiting m) ((c, z) :: r.1, r.2) := by
  rcases step_spec hZone hPlain with
    ⟨hWaiting, hOther, hStep⟩ | ⟨hWaiting, rfl, rfl, out, hStep⟩ |
      ⟨hWaiting, next, hStep, hNext, hNextWaiting⟩
  · have hRun : scanner.run m (c :: cs) = .error .loneAmpersand :=
      Transducer.run_cons_of_step_error hStep cs
    have hx : (c, z) ≠ ('&', .outside) := fun h => hOther (Prod.mk.inj h).1
    rw [hRun, hWaiting, verdict_other hx]
    rfl
  · rw [refusal?_run_cons hStep, hRest .idle rfl, hWaiting, verdict_ampersand]
    rfl
  · rw [refusal?_run_cons hStep, hRest next.2 hNext, hWaiting, hNextWaiting]
    by_cases hx : (c, z) = ('&', .outside)
    · rw [hx, verdict_ampersand, decide_eq_true rfl]
      rfl
    · rw [verdict_other hx, decide_eq_false hx]
      rfl

/-- A backslash that escapes nothing is an ordinary character. -/
private theorem run_escape_ordinary (inWord : Bool) (read : List Char) {cs : List Char}
    (hDouble : cs.head? ≠ some '"') (hBackslash : cs.head? ≠ some '\\') :
    scanner.run (.escape inWord read) cs =
      scanner.run (.quoted inWord .double ('\\' :: read)) cs := by
  cases cs with
  | nil => rfl
  | cons d cs =>
      have hD : d ≠ '"' := fun h => hDouble (by rw [h]; rfl)
      have hB : d ≠ '\\' := fun h => hBackslash (by rw [h]; rfl)
      have hEscape : scanner.step (.escape inWord read) d =
          .ok ([], .quoted inWord .double (d :: '\\' :: read)) := by
        simp [scanner, Scan.step, hD, hB]
      have hQuoted : scanner.step (.quoted inWord .double ('\\' :: read)) d =
          .ok ([], .quoted inWord .double (d :: '\\' :: read)) := by
        simp [scanner, Scan.step, Quote.mark, hD, hB]
      rw [Transducer.run_cons_of_step hEscape, Transducer.run_cons_of_step hQuoted]

/-- Only quoted modes lie in double quotes. -/
private theorem eq_quoted_of_zoneOf {m : Mode} (h : zoneOf m = some .double) :
    ∃ inWord read, m = .quoted inWord .double read := by
  cases m with
  | quoted inWord q read =>
      cases q with
      | single => cases h
      | double => exact ⟨inWord, read, rfl⟩
  | _ => cases h

/-- The same for a backslash in double quotes that escapes nothing. -/
private theorem refusal?_run_backslash {m : Mode} (hZone : zoneOf m = some .double)
    {cs : List Char} (hDouble : cs.head? ≠ some '"') (hBackslash : cs.head? ≠ some '\\')
    {r : List (Char × Zone) × Zone}
    (hRest : ∀ m', zoneOf m' = some .double →
      refusal? (scanner.run m' cs) = verdict (isWaiting m') r) :
    refusal? (scanner.run m ('\\' :: cs)) = verdict (isWaiting m) (('\\', .double) :: r.1, r.2) := by
  obtain ⟨inWord, read, rfl⟩ := eq_quoted_of_zoneOf hZone
  have hStep : Scan.step (.quoted inWord .double read) '\\' =
      .ok ([], .escape inWord read) := rfl
  rw [refusal?_run_cons hStep, run_escape_ordinary inWord read hDouble hBackslash,
    hRest _ rfl, verdict_other (by simp)]
  rfl

private theorem refusal?_finish (z : Zone) (m : Mode) (hZone : zoneOf m = some z) :
    refusal? (scanner.run m []) = verdict (isWaiting m) ([], z) := by
  cases m with
  | quoted inWord q read =>
      cases q <;> obtain rfl := Option.some.inj hZone <;> rfl
  | escape inWord read => cases hZone
  | _ =>
      obtain rfl := Option.some.inj hZone
      rfl

/-- **Where the scanner fails.** From a mode in a zone, a line is refused as its
reading from that zone says. -/
theorem refusal?_run (z : Zone) (cs : List Char) :
    ∀ m, zoneOf m = some z →
      refusal? (scanner.run m cs) = verdict (isWaiting m) (z.read cs) := by
  fun_induction Zone.read z cs with
  | case1 z => exact refusal?_finish z
  | case2 z c =>
      intro m hZone
      have hEnd : ∀ m', zoneOf m' = some (z.after c) →
          refusal? (scanner.run m' []) = verdict (isWaiting m') ([], z.after c) :=
        refusal?_finish (z.after c)
      by_cases hBackslash : z = .double ∧ c = '\\'
      · obtain ⟨rfl, rfl⟩ := hBackslash
        exact refusal?_run_backslash hZone (by simp) (by simp) hEnd
      · exact refusal?_run_step hZone hBackslash hEnd
  | case3 z c d cs hPair rest ih =>
      intro m hZone
      obtain ⟨rfl, rfl, hEscaped⟩ := hPair
      obtain ⟨inWord, read, rfl⟩ := eq_quoted_of_zoneOf hZone
      have hFirst : Scan.step (.quoted inWord .double read) '\\' =
          .ok ([], .escape inWord read) := rfl
      obtain ⟨read', hSecond⟩ : ∃ read', Scan.step (.escape inWord read) d =
          .ok ([], .quoted inWord .double read') := by
        cases inWord with
        | false => exact ⟨_, if_pos ⟨hEscaped, rfl⟩⟩
        | true => exact ⟨_, if_neg (by simp)⟩
      rw [refusal?_run_cons hFirst, refusal?_run_cons hSecond, ih _ rfl,
        verdict_other (by simp), verdict_other (by simp)]
      rfl
  | case4 z c d cs hPair rest ih =>
      intro m hZone
      by_cases hBackslash : z = .double ∧ c = '\\'
      · obtain ⟨rfl, rfl⟩ := hBackslash
        have hDouble : (d :: cs).head? ≠ some '"' := by
          intro h
          exact hPair ⟨rfl, rfl, .inl (Option.some.inj h)⟩
        have hOther : (d :: cs).head? ≠ some '\\' := by
          intro h
          exact hPair ⟨rfl, rfl, .inr (Option.some.inj h)⟩
        exact refusal?_run_backslash hZone hDouble hOther ih
      · exact refusal?_run_step hZone hBackslash ih

/-- A refusal is known by its message. -/
private theorem mapError_message_iff (x : Except LexError (List Token)) (e : LexError) :
    x.mapError LexError.message = .error e.message ↔ refusal? x = some e := by
  have hInj : ∀ e' : LexError, e'.message = e.message ↔ e' = e := by
    intro e'
    cases e <;> cases e' <;> decide
  cases x with
  | error e' =>
      show Except.error e'.message = Except.error e.message ↔ some e' = some e
      rw [Except.error.injEq, Option.some.injEq]
      exact hInj e'
  | ok ts =>
      show Except.ok ts = Except.error e.message ↔ none = some e
      simp

private theorem exists_ok_iff (x : Except LexError (List Token)) :
    (∃ ts, x = .ok ts) ↔ refusal? x = none := by
  cases x <;> simp [refusal?]

/--
**Which lines can be split.** Read a line by zones, from outside quotes. It is
refused for an ampersand exactly if some maximal run of ampersands outside quotes
is odd; if there is none, it is refused for an open quote exactly if it ends inside
quotes; and in all other cases it has tokens.
-/
theorem tokenize_iff (line : String) :
    ((tokenize line).mapError LexError.message =
        .error "unsupported operator '&' (background jobs are not supported)" ↔
      HasOddRun ('&', .outside) (Zone.outside.read line.toList).1) ∧
    ((tokenize line).mapError LexError.message = .error "unterminated string" ↔
      ¬ HasOddRun ('&', .outside) (Zone.outside.read line.toList).1 ∧
        (Zone.outside.read line.toList).2 ≠ .outside) ∧
    ((∃ ts, tokenize line = .ok ts) ↔
      ¬ HasOddRun ('&', .outside) (Zone.outside.read line.toList).1 ∧
        (Zone.outside.read line.toList).2 = .outside) := by
  have hRun : refusal? (tokenize line) = verdict false (Zone.outside.read line.toList) :=
    refusal?_run .outside line.toList .idle rfl
  have hAmpersand := mapError_message_iff (tokenize line) .loneAmpersand
  have hOpen := mapError_message_iff (tokenize line) .openQuote
  rw [hRun] at hAmpersand hOpen
  rw [exists_ok_iff, hRun, ← oddRunFrom_iff]
  refine ⟨hAmpersand.trans ?_, hOpen.trans ?_, ?_⟩
  all_goals
    unfold verdict
    by_cases hOdd : oddRunFrom ('&', .outside) false (Zone.outside.read line.toList).1 = true
    · simp [hOdd]
    · by_cases hEnd : (Zone.outside.read line.toList).2 = .outside <;> simp [hOdd, hEnd]

end MemShell.Token
