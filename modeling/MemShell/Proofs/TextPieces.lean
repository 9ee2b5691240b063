import Mathlib.Data.List.Infix
import Mathlib.Data.List.TakeWhile
import MemShell.Variable

/-!
# The pieces of a text

References are found by a reader that looks at one character at a time and remembers
what is open. What it finds can be said without it. A text is cut from left to right,
and at each cut one of five pieces fits: a character other than `$`, a name in braces
that runs to the first closing brace, `$?`, a `$` with the longest run of name
characters after it, and a `$` that starts none of these. Whether a piece fits depends
on the piece and on what comes right after it (`Fits`), so the cuts of a text are a
derivation with one rule (`Reads`), and the reader finds exactly the pieces that were
cut (`run_of_reads`).

Only an opening brace with no closing brace after it has no piece that fits. Such a
place may stand anywhere in the text and is found by reading all that is before it, but
it can be told without reading: no piece can hide it, because the only piece that skips
over a `$` is a name in braces, and that one ends with a closing brace
(`openReference_of_spelling`).

## Main results

* `run_spelling` — the reader takes one piece at a time.
* `exists_fits` — a piece fits everywhere but at an opening brace that is never closed.
* `expandText_reading` — filling in references is filling in the pieces of the text.
-/

namespace MemShell.Piece

/-! ## Cutting a text into pieces -/

/-- Where a piece may be cut off: `rest` is the text right after it. -/
def Fits : Piece → List Char → Prop
  | literal c, _ => c ≠ '$'
  | braced name, _ => '\x7d' ∉ name
  | status, _ => True
  | named name, rest =>
      name ≠ [] ∧ (∀ c ∈ name, isNameChar c = true) ∧ ∀ c ∈ rest.head?, isNameChar c = false
  | dollar, rest => ∀ c ∈ rest.head?, c ≠ '\x7b' ∧ c ≠ '?' ∧ isNameChar c = false

/-- The pieces of a text, cut off one after the other. -/
inductive Reads : List Char → List Piece → Prop
  | nil : Reads [] []
  | cons {p : Piece} {rest : List Char} {ps : List Piece} (hFits : p.Fits rest)
      (hRest : Reads rest ps) : Reads (p.spelling ++ rest) (p :: ps)

/-- An opening brace after a `$` with no closing brace after it. -/
def HasOpenReference (cs : List Char) : Prop :=
  ∃ after, ('$' :: '\x7b' :: after) <:+ cs ∧ '\x7d' ∉ after

theorem Reads.flatMap_spelling {cs : List Char} {ps : List Piece} (h : Reads cs ps) :
    ps.flatMap spelling = cs := by
  induction h with
  | nil => rfl
  | cons _ _ ih => rw [List.flatMap_cons, ih]

theorem spelling_ne_nil (p : Piece) : p.spelling ≠ [] := by
  cases p <;> simp [spelling]

/-! ## The reader takes one piece at a time -/

theorem step_text (c : Char) : reader.step .text c = .ok ((start c).1, (start c).2) :=
  rfl

/-- A `$` before a character of a name opens the name. -/
theorem feed_text_name {c : Char} (h : isNameChar c = true) :
    reader.feed .text ['$', c] = .ok ([], .name [c]) := by
  have hBrace : c ≠ '\x7b' := by
    rintro rfl
    exact absurd h (by decide)
  have hMark : c ≠ '?' := by
    rintro rfl
    exact absurd h (by decide)
  have hStep : reader.step .dollar c = .ok ([], .name [c]) := by
    show Except.ok (step .dollar c) = _
    simp [step, hBrace, hMark, h]
  have hDollar : reader.step .text '$' = .ok ([], .dollar) := rfl
  exact Transducer.feed_cons_eq_ok_iff.mpr ⟨[], _, [], hDollar,
    Transducer.feed_cons_eq_ok_iff.mpr ⟨[], _, [], hStep, rfl, rfl⟩, rfl⟩

/-- Characters that keep a name open are gathered, last character first. -/
private theorem feed_open {mode : List Char → Mode} {name : List Char}
    (hOpen : ∀ c ∈ name, ∀ read, step (mode read) c = ([], mode (c :: read))) :
    ∀ read, reader.feed (mode read) name = .ok ([], mode (name.reverse ++ read)) := by
  induction name with
  | nil =>
      intro read
      rfl
  | cons c name ih =>
      intro read
      have hStep : reader.step (mode read) c = .ok ([], mode (c :: read)) :=
        congrArg Except.ok (hOpen c (by simp) read)
      have hRest := ih (fun d hd => hOpen d (by simp [hd])) (c :: read)
      refine Transducer.feed_cons_eq_ok_iff.mpr ⟨[], _, [], hStep, ?_, rfl⟩
      simpa using hRest

private theorem feed_name {name : List Char} (h : ∀ c ∈ name, isNameChar c = true)
    (read : List Char) :
    reader.feed (.name read) name = .ok ([], .name (name.reverse ++ read)) :=
  feed_open (fun c hc read => by simp [step, h c hc]) read

private theorem feed_braced {name : List Char} (h : '\x7d' ∉ name) :
    reader.feed (.braced []) name = .ok ([], .braced name.reverse) := by
  have hOpen : ∀ c ∈ name, ∀ read, step (.braced read) c = ([], .braced (c :: read)) := by
    intro c hc read
    have hChar : c ≠ '\x7d' := fun hEq => h (hEq ▸ hc)
    simp [step, hChar]
  simpa using feed_open hOpen []

/-- After a piece that the end of the text or the next character shows to be complete, the
reader goes on as from the start. -/
private theorem run_complete {m : Mode} {p : Piece} {rest : List Char}
    (hEnd : finish m = .ok [p]) (hNext : ∀ c ∈ rest.head?, step m c = startAfter p c) :
    reader.run m rest = (reader.run .text rest).map (p :: ·) := by
  cases rest with
  | nil => exact hEnd
  | cons c cs =>
      have hStep : reader.step m c = .ok (p :: (start c).1, (start c).2) :=
        congrArg Except.ok (hNext c rfl)
      rw [Transducer.run_cons_of_step hStep, Transducer.run_cons_of_step (step_text c)]
      cases reader.run (start c).2 cs <;> rfl

private theorem map_nil_append (x : Except LineError (List Piece)) : x.map ([] ++ ·) = x := by
  cases x <;> rfl

/-- **One piece at a time**: where a piece fits, the reader gives it out and goes on after
it. -/
theorem run_spelling {p : Piece} {rest : List Char} (h : p.Fits rest) :
    reader.run .text (p.spelling ++ rest) = (reader.run .text rest).map (p :: ·) := by
  cases p with
  | literal c =>
      have hStep : reader.step .text c = .ok ([literal c], .text) := by
        show Except.ok (start c) = _
        simp [start, show c ≠ '$' from h]
      exact Transducer.run_cons_of_step hStep rest
  | braced name =>
      have hOpen : reader.feed .text ['$', '\x7b'] = .ok ([], .braced []) := rfl
      have hClose : reader.feed (.braced name.reverse) ['\x7d'] = .ok ([braced name], .text) := by
        show Except.ok ([braced name.reverse.reverse], Mode.text) = _
        rw [List.reverse_reverse]
      have hAll := Transducer.feed_append_of_ok
        (Transducer.feed_append_of_ok hOpen (feed_braced h)) hClose
      exact Transducer.run_append_of_feed hAll rest
  | status =>
      have hAll : reader.feed .text ['$', '?'] = .ok ([status], .text) := rfl
      exact Transducer.run_append_of_feed hAll rest
  | named name =>
      obtain ⟨hSome, hChars, hNext⟩ := h
      obtain ⟨c, name, rfl⟩ := List.exists_cons_of_ne_nil hSome
      have hName : reader.feed (.name [c]) name = .ok ([], .name (name.reverse ++ [c])) :=
        feed_name (fun d hd => hChars d (by simp [hd])) [c]
      have hAll : reader.feed .text (['$', c] ++ name) = .ok ([], .name (name.reverse ++ [c])) :=
        Transducer.feed_append_of_ok (feed_text_name (hChars c (by simp))) hName
      have hRead : (name.reverse ++ [c]).reverse = c :: name := by simp
      show reader.run .text (['$', c] ++ name ++ rest) = _
      rw [Transducer.run_append_of_feed hAll, map_nil_append]
      refine run_complete ?_ fun d hd => ?_
      · simp [finish, hRead]
      · simp [step, hNext d hd, hRead]
  | dollar =>
      have hDollar : reader.feed .text ['$'] = .ok ([], .dollar) := rfl
      show reader.run .text (['$'] ++ rest) = _
      rw [Transducer.run_append_of_feed hDollar, map_nil_append]
      refine run_complete rfl fun c hc => ?_
      obtain ⟨hBrace, hMark, hChar⟩ := h c hc
      simp [step, hBrace, hMark, hChar]

/-- **The reader finds the pieces** that were cut. -/
theorem run_of_reads {cs : List Char} {ps : List Piece} (h : Reads cs ps) :
    reader.run .text cs = .ok ps := by
  induction h with
  | nil => rfl
  | cons hFits _ ih =>
      rw [run_spelling hFits, ih]
      rfl

theorem Reads.unique {cs : List Char} {ps qs : List Piece} (h : Reads cs ps)
    (h' : Reads cs qs) : qs = ps := by
  have hSame := (run_of_reads h').symm.trans (run_of_reads h)
  exact Except.ok.inj hSame

/-! ## Where no piece fits -/

/-- The reader does not come back from a brace that is never closed. -/
theorem run_open {after : List Char} (h : '\x7d' ∉ after) :
    reader.run .text ('$' :: '\x7b' :: after) = .error .openReference := by
  have hOpen : reader.feed .text ['$', '\x7b'] = .ok ([], .braced []) := rfl
  exact Transducer.run_of_feed (Transducer.feed_append_of_ok hOpen (feed_braced h))

/-- The longest run of name characters is a name that ends where the run does. -/
theorem fits_takeWhile {c : Char} (h : isNameChar c = true) (cs : List Char) :
    (named ((c :: cs).takeWhile isNameChar)).Fits ((c :: cs).dropWhile isNameChar) := by
  refine ⟨by simp [h], fun d hd => List.mem_takeWhile_imp hd, fun d hd => ?_⟩
  have hStop := List.head?_dropWhile_not isNameChar (c :: cs)
  rw [Option.mem_def.mp hd] at hStop
  exact hStop

/-- **A piece fits** everywhere but at an opening brace that is never closed. -/
theorem exists_fits {cs : List Char} (h : cs ≠ []) :
    (∃ p rest, cs = spelling p ++ rest ∧ p.Fits rest) ∨
      ∃ after, cs = '$' :: '\x7b' :: after ∧ '\x7d' ∉ after := by
  obtain ⟨c, cs, rfl⟩ := List.exists_cons_of_ne_nil h
  by_cases hDollar : c = '$'
  · subst hDollar
    cases cs with
    | nil => exact .inl ⟨dollar, [], rfl, fun d hd => by cases hd⟩
    | cons d ds =>
        by_cases hBrace : d = '\x7b'
        · subst hBrace
          by_cases hClosed : '\x7d' ∈ ds
          · obtain ⟨name, rest, rfl, hFirst⟩ := List.eq_append_cons_of_mem hClosed
            exact .inl ⟨braced name, rest, by simp [spelling], hFirst⟩
          · exact .inr ⟨ds, rfl, hClosed⟩
        · by_cases hMark : d = '?'
          · subst hMark
            exact .inl ⟨status, ds, rfl, trivial⟩
          · cases hChar : isNameChar d with
            | true =>
                refine .inl ⟨_, _, ?_, fits_takeWhile hChar ds⟩
                simp only [spelling, List.cons_append, List.takeWhile_append_dropWhile]
            | false =>
                refine .inl ⟨dollar, d :: ds, rfl, fun e he => ?_⟩
                obtain rfl : d = e := Option.some.inj he
                exact ⟨hBrace, hMark, hChar⟩
  · exact .inl ⟨literal c, cs, rfl, hDollar⟩

/-- What starts with a `$` does not start among other characters. -/
private theorem suffix_of_append (front : List Char) {rest after : List Char} (h : '$' ∉ front)
    (hSuffix : ('$' :: after) <:+ front ++ rest) : ('$' :: after) <:+ rest := by
  induction front with
  | nil => exact hSuffix
  | cons c front ih =>
      rw [List.mem_cons, not_or] at h
      rcases List.suffix_cons_iff.mp hSuffix with hEq | hLater
      · exact absurd (List.cons.inj hEq).1 h.1
      · exact ih h.2 hLater

/-- **No piece hides an open brace**: one that stands in a text stands after the first
piece. -/
theorem openReference_of_spelling {p : Piece} {rest : List Char} (h : p.Fits rest)
    (hOpen : HasOpenReference (p.spelling ++ rest)) : HasOpenReference rest := by
  obtain ⟨after, hSuffix, hUnclosed⟩ := hOpen
  refine ⟨after, ?_, hUnclosed⟩
  cases p with
  | literal c =>
      have hChar : '$' ∉ [c] := by simpa using Ne.symm h
      exact suffix_of_append [c] hChar hSuffix
  | braced name =>
      -- the closing brace of the name comes after whatever starts inside it
      have hWhole : spelling (braced name) ++ rest =
          '$' :: '\x7b' :: name ++ '\x7d' :: rest := by
        simp [spelling]
      rw [hWhole] at hSuffix
      rcases List.suffix_or_suffix_of_suffix hSuffix (List.suffix_append _ _) with hLater | hInside
      · exact suffix_of_append ['\x7d'] (by decide) hLater
      · have hMem : '\x7d' ∈ '$' :: '\x7b' :: after := hInside.mem (by simp)
        simp [hUnclosed] at hMem
  | status =>
      rcases List.suffix_cons_iff.mp hSuffix with hEq | hLater
      · cases hEq
      · exact suffix_of_append ['?'] (by decide) hLater
  | named name =>
      obtain ⟨hSome, hChars, -⟩ := h
      rcases List.suffix_cons_iff.mp hSuffix with hEq | hLater
      · obtain ⟨c, name, rfl⟩ := List.exists_cons_of_ne_nil hSome
        have hBrace : '\x7b' = c := (List.cons.inj (List.cons.inj hEq).2).1
        exact absurd (hChars c (by simp)) (by subst hBrace; decide)
      · have hName : '$' ∉ name := fun hMem => absurd (hChars '$' hMem) (by decide)
        exact suffix_of_append name hName hLater
  | dollar =>
      rcases List.suffix_cons_iff.mp hSuffix with hEq | hLater
      · have hRest : rest = '\x7b' :: after := (List.cons.inj hEq).2.symm
        exact absurd rfl (h '\x7b' (by rw [hRest]; rfl)).1
      · exact hLater

theorem Reads.not_hasOpenReference {cs : List Char} {ps : List Piece} (h : Reads cs ps) :
    ¬ HasOpenReference cs := by
  induction h with
  | nil =>
      rintro ⟨after, hSuffix, -⟩
      cases List.suffix_nil.mp hSuffix
  | cons hFits _ ih => exact fun hOpen => ih (openReference_of_spelling hFits hOpen)

/-- A text is cut into pieces to its end, or the reader stops at an open brace. -/
theorem reads_or_open (cs : List Char) :
    (∃ ps, Reads cs ps) ∨
      (HasOpenReference cs ∧ reader.run .text cs = .error .openReference) := by
  -- by the length of what is left after a piece
  induction hLength : cs.length using Nat.strong_induction_on generalizing cs with
  | _ n ih =>
      by_cases hNil : cs = []
      · subst hNil
        exact .inl ⟨[], .nil⟩
      · rcases exists_fits hNil with ⟨p, rest, rfl, hFits⟩ | ⟨after, rfl, hUnclosed⟩
        · have hShorter : rest.length < n := by
            have hSome := List.length_pos_iff.mpr (spelling_ne_nil p)
            rw [← hLength, List.length_append]
            omega
          rcases ih rest.length hShorter rest rfl with ⟨ps, hRest⟩ | ⟨hOpen, hRun⟩
          · exact .inl ⟨p :: ps, .cons hFits hRest⟩
          · obtain ⟨after, hSuffix, hUnclosed⟩ := hOpen
            refine .inr ⟨⟨after, hSuffix.trans (List.suffix_append _ _), hUnclosed⟩, ?_⟩
            rw [run_spelling hFits, hRun]
            rfl
        · exact .inr ⟨⟨after, List.suffix_refl _, hUnclosed⟩, run_open hUnclosed⟩

end MemShell.Piece

namespace MemShell

open Piece

/-! ## Filling in the pieces -/

theorem expandText_of_reads {text : String} {ps : List Piece} (h : Reads text.toList ps)
    (env : Table String String) :
    expandText env text = .ok (String.join (ps.map (Piece.value env))) := by
  unfold expandText Piece.ofText
  rw [run_of_reads h]
  rfl

theorem expandText_of_run {text : String} {e : LineError}
    (h : reader.run .text text.toList = .error e) (env : Table String String) :
    expandText env text = .error e := by
  unfold expandText Piece.ofText
  rw [h]
  rfl

/-- References are refused where a brace is open, and nowhere else. -/
theorem expandText_eq_error_iff (env : Table String String) (text : String) :
    expandText env text = .error .openReference ↔ HasOpenReference text.toList := by
  rcases reads_or_open text.toList with ⟨ps, hReads⟩ | ⟨hOpen, hRun⟩
  · rw [expandText_of_reads hReads]
    exact ⟨(by intro h; cases h), fun hOpen => absurd hOpen hReads.not_hasOpenReference⟩
  · exact ⟨fun _ => hOpen, fun _ => expandText_of_run hRun env⟩

/--
**Filling in is one pass over the pieces of a text.** A text is refused with some variables
exactly if it is with all, and that is if a brace is opened in it after a `$` and none is
closed from there to its end. A text that is not refused has one and only one list of
pieces; their spellings make up the text, and with any variables the result is made up of
the values of the pieces, a literal standing for itself and a reference for the value of
its name, which is not read again.
-/
theorem expandText_reading (text : String) :
    ((∃ env, expandText env text = .error .openReference) ↔ HasOpenReference text.toList) ∧
    ((∀ env, expandText env text = .error .openReference) ↔ HasOpenReference text.toList) ∧
    ((∃ env, expandText env text ≠ .error .openReference) →
      ∃ pieces, Reads text.toList pieces ∧
        (∀ others, Reads text.toList others → others = pieces) ∧
        pieces.flatMap spelling = text.toList ∧
        ∀ env, expandText env text = .ok (String.join (pieces.map (Piece.value env)))) := by
  refine ⟨?_, ?_, ?_⟩
  · exact ⟨fun ⟨env, h⟩ => (expandText_eq_error_iff env text).mp h,
      fun hOpen => ⟨∅, (expandText_eq_error_iff ∅ text).mpr hOpen⟩⟩
  · exact ⟨fun h => (expandText_eq_error_iff ∅ text).mp (h ∅),
      fun hOpen env => (expandText_eq_error_iff env text).mpr hOpen⟩
  · rintro ⟨env, hRead⟩
    rcases reads_or_open text.toList with ⟨ps, hReads⟩ | ⟨-, hRun⟩
    · exact ⟨ps, hReads, fun _ hOthers => hReads.unique hOthers, hReads.flatMap_spelling,
        expandText_of_reads hReads⟩
    · exact absurd (expandText_of_run hRun env) hRead

/-- One piece of each kind; a `$` before a name, and a `$` inside braces. -/
def mixedText : String :=
  "$$x_1-$\x7ba $b\x7d$?"

def mixedPieces : List Piece :=
  [.dollar, .named ['x', '_', '1'], .literal '-', .braced ['a', ' ', '$', 'b'], .status]

theorem expandText_reading_mixedText :
    (∃ env, expandText env mixedText ≠ .error .openReference) ∧
      Reads mixedText.toList mixedPieces ∧
      ∀ env, expandText env mixedText = .ok (String.join (mixedPieces.map (Piece.value env))) := by
  have hRead : ∃ env, expandText env mixedText ≠ .error .openReference := ⟨∅, by decide⟩
  obtain ⟨pieces, hReads, -, -, hValues⟩ := (expandText_reading mixedText).2.2 hRead
  have hRun : reader.run .text mixedText.toList = .ok mixedPieces := by decide
  obtain rfl : pieces = mixedPieces := Except.ok.inj ((run_of_reads hReads).symm.trans hRun)
  exact ⟨hRead, hReads, hValues⟩

end MemShell
