/-!
# Blank characters, words and lines

A shell line is cut at blanks, a file at line feeds, and a comment is found
by looking at the first character that is not blank. All of these go
through one predicate, `isBlank`: the characters that separate text in
Unicode, which are the six ASCII ones, the four information separators,
the next-line and no-break spaces and the spaces of the general
punctuation block. The zero-width characters are not among them.

Scanning works on `List Char`, so that every function here recurses on its
input; `String` appears at the edges only.

## Main results

* `not_isBlank_of_trimLeft_eq_cons`, `trim_of_not_blank` — what trimming removes.
* `cut_append` — a text is cut at the first mark in it.
-/

namespace MemShell.Text

/-! ## The character class -/

/-- Characters that separate words. -/
def isBlank (c : Char) : Bool :=
  let n := c.toNat
  (0x09 ≤ n && n ≤ 0x0D) || (0x1C ≤ n && n ≤ 0x20) || n == 0x85 || n == 0xA0 ||
    n == 0x1680 || (0x2000 ≤ n && n ≤ 0x200A) || n == 0x2028 || n == 0x2029 ||
    n == 0x202F || n == 0x205F || n == 0x3000

/-! ## Trimming -/

/-- The text without the blanks at its start. -/
def trimLeft (cs : List Char) : List Char :=
  cs.dropWhile isBlank

/-- The text without the blanks at its end. -/
def trimRight (cs : List Char) : List Char :=
  (cs.reverse.dropWhile isBlank).reverse

/-- The text without the blanks at its two ends. -/
def trim (cs : List Char) : List Char :=
  trimRight (trimLeft cs)

/-- `trim` on strings. -/
def strip (s : String) : String :=
  String.ofList (trim s.toList)

/-- What is left after trimming on the left starts with a character that is not blank. -/
theorem not_isBlank_of_trimLeft_eq_cons {cs rest : List Char} {c : Char}
    (h : trimLeft cs = c :: rest) : isBlank c = false := by
  induction cs with
  | nil => simp [trimLeft] at h
  | cons d ds ih =>
      by_cases hBlank : isBlank d = true
      · exact ih (by simpa [trimLeft, List.dropWhile_cons, hBlank] using h)
      · have hHead : d = c := by
          have : d = c ∧ ds = rest := by
            simpa [trimLeft, List.dropWhile_cons, hBlank] using h
          exact this.1
        simpa [← hHead] using hBlank

/-- Trimming removes nothing where nothing is blank. -/
theorem trim_of_not_blank {cs : List Char} (h : ∀ c ∈ cs, isBlank c = false) : trim cs = cs := by
  have hKept : ∀ ds : List Char, (∀ c ∈ ds, isBlank c = false) → trimLeft ds = ds := by
    intro ds hDs
    cases ds with
    | nil => rfl
    | cons c ds => simp [trimLeft, hDs c List.mem_cons_self]
  have hReverse : trimLeft cs.reverse = cs.reverse :=
    hKept _ fun c hc => h c (List.mem_reverse.mp hc)
  unfold trimLeft at hReverse
  rw [trim, hKept cs h, trimRight, hReverse, List.reverse_reverse]

/-- Trimming on the right keeps a first character that is not blank. -/
theorem trimRight_cons_of_not_blank {c : Char} (h : isBlank c = false) (cs : List Char) :
    trimRight (c :: cs) = c :: trimRight cs := by
  rw [trimRight, trimRight, List.reverse_cons, List.dropWhile_append]
  cases hBlanks : cs.reverse.dropWhile isBlank with
  | nil => simp [h]
  | cons d ds => simp

/-! ## Words -/

/-- Cuts `cs` at blanks. `acc` is the word being read, last character first;
it is given out when a blank or the end follows it, unless it is empty. -/
def wordsFrom : List Char → List Char → List (List Char)
  | acc, [] => if acc.isEmpty then [] else [acc.reverse]
  | acc, c :: cs =>
      if isBlank c then
        if acc.isEmpty then wordsFrom [] cs else acc.reverse :: wordsFrom [] cs
      else wordsFrom (c :: acc) cs

/-- The maximal runs of characters that are not blank. -/
def words (cs : List Char) : List (List Char) :=
  wordsFrom [] cs

/-! ## Cutting at one character -/

/-- The pieces of `cs` between occurrences of `mark`; there is always one more
piece than there are marks. -/
def splitAt (mark : Char) : List Char → List (List Char)
  | [] => [[]]
  | c :: cs =>
      if c = mark then [] :: splitAt mark cs
      else
        match splitAt mark cs with
        | [] => [[c]]
        | piece :: rest => (c :: piece) :: rest

/-- `splitAt` on strings. -/
def split (mark : Char) (s : String) : List String :=
  (splitAt mark s.toList).map String.ofList

theorem splitAt_ne_nil (mark : Char) (cs : List Char) : splitAt mark cs ≠ [] := by
  cases cs with
  | nil => simp [splitAt]
  | cons c cs =>
      simp only [splitAt]
      split
      · simp
      · split <;> simp

/-- No piece holds the mark it was cut at. -/
theorem not_mem_of_mem_splitAt {mark : Char} {cs piece : List Char}
    (h : piece ∈ splitAt mark cs) : mark ∉ piece := by
  induction cs generalizing piece with
  | nil => simp_all [splitAt]
  | cons c cs ih =>
      by_cases hMark : c = mark
      · rcases (by simpa [splitAt, hMark] using h :
          piece = [] ∨ piece ∈ splitAt mark cs) with hp | hp
        · simp [hp]
        · exact ih hp
      · cases hSplit : splitAt mark cs with
        | nil => exact absurd hSplit (splitAt_ne_nil mark cs)
        | cons first rest =>
            rw [hSplit] at ih
            rcases (by simpa [splitAt, hMark, hSplit] using h :
              piece = c :: first ∨ piece ∈ rest) with hp | hp
            · have hFirst : mark ∉ first := ih (by simp)
              simp [hp, hFirst, Ne.symm hMark]
            · exact ih (by simp [hp])

/-- Text before the first `mark` and text after it. -/
def cutAt (mark : Char) : List Char → Option (List Char × List Char)
  | [] => none
  | c :: cs =>
      if c = mark then some ([], cs)
      else (cutAt mark cs).map fun (before, after) => (c :: before, after)

/-- `cutAt` on strings. -/
def cut (mark : Char) (s : String) : Option (String × String) :=
  (cutAt mark s.toList).map fun (before, after) => (String.ofList before, String.ofList after)

/-- Cutting takes one mark out and keeps the rest; the part before it has none. -/
theorem cutAt_eq_some {mark : Char} {cs before after : List Char}
    (h : cutAt mark cs = some (before, after)) :
    cs = before ++ mark :: after ∧ mark ∉ before := by
  induction cs generalizing before with
  | nil => simp [cutAt] at h
  | cons c cs ih =>
      by_cases hMark : c = mark
      · obtain ⟨rfl, rfl⟩ : [] = before ∧ cs = after := by simpa [cutAt, hMark] using h
        simp [hMark]
      · obtain ⟨b, a, hCut, rfl, rfl⟩ : ∃ b a, cutAt mark cs = some (b, a) ∧
            c :: b = before ∧ a = after := by simpa [cutAt, hMark] using h
        obtain ⟨hEq, hNot⟩ := ih hCut
        exact ⟨by simp [hEq], by simp [hNot, Ne.symm hMark]⟩

/-- The first mark is where a text is cut. -/
theorem cutAt_append {mark : Char} {before : List Char} (h : mark ∉ before) (after : List Char) :
    cutAt mark (before ++ mark :: after) = some (before, after) := by
  induction before with
  | nil => simp [cutAt]
  | cons c cs ih =>
      rw [List.mem_cons, not_or] at h
      simp [cutAt, Ne.symm h.1, ih h.2]

theorem cut_append {mark : Char} {before : String} (h : mark ∉ before.toList) (after : String) :
    cut mark (before ++ String.singleton mark ++ after) = some (before, after) := by
  have hText : (before ++ String.singleton mark ++ after).toList =
      before.toList ++ mark :: after.toList := by
    simp
  rw [cut, hText, cutAt_append h]
  simp

theorem eq_of_cut_eq_some {mark : Char} {s before after : String}
    (h : cut mark s = some (before, after)) : s = before ++ String.singleton mark ++ after := by
  obtain ⟨⟨cs, ds⟩, hCut, hParts⟩ := Option.map_eq_some_iff.mp h
  obtain ⟨rfl, rfl⟩ := Prod.mk.inj hParts
  apply String.toList_inj.mp
  simp [(cutAt_eq_some hCut).1]

/-! ## Lines of output -/

/-- Puts each item on a line of its own. A list whose joined text is empty
gives no line at all, so one empty item prints nothing. -/
def asLines (items : List String) : String :=
  let text := "\n".intercalate items
  if text.isEmpty then "" else text ++ "\n"

end MemShell.Text
