import MemShell.Proofs.JoinedLines

/-!
# Blanks divide a line

The scanner has no look at what follows: what an operator character, a backslash or the last
letter of a word leads to is remembered in the mode, and the next character decides. A line
that could end somewhere may therefore go on there with a blank as well as end. The blank gives
out what the end would have given out and leaves nothing open (`Scan.step_of_finish`), and from
there the rest is read as a line of its own.

So the tokens of a line are found part by part: no word, no quoted text and no operator of two
characters reaches across a blank at which the part before it is complete, and a part that
cannot be split is refused for the reason that it gives by itself.

## Main results

* `feed_blanks` — a line that has tokens, up to blanks after it.
* `tokenize_divided` — splitting takes a line apart at blanks.
-/

namespace MemShell.Token

open Text (isBlank)

namespace Scan

/-- Blanks between tokens are read without a trace. -/
theorem feed_idle_blanks {blanks : List Char} (h : ∀ c ∈ blanks, isBlank c = true) :
    scanner.feed .idle blanks = .ok ([], .idle) := by
  induction blanks with
  | nil => rfl
  | cons c blanks ih =>
      obtain ⟨hFirst, hRest⟩ := List.forall_mem_cons.mp h
      have hSilent : scanner.step .idle c = .ok ([], .idle) := step_idle_blank hFirst
      rw [Transducer.feed_cons_of_silent hSilent, ih hRest]

end Scan

/-- A line that has tokens, up to blanks after it. -/
theorem feed_blanks {line : String} {ts : List Token} (h : tokenize line = .ok ts)
    {blanks : List Char} (hBlank : ∀ c ∈ blanks, isBlank c = true) (hSome : blanks ≠ []) :
    Scan.scanner.feed .idle (line.toList ++ blanks) = .ok (ts, .idle) := by
  obtain ⟨c, rest, rfl⟩ := List.exists_cons_of_ne_nil hSome
  obtain ⟨hFirst, hRest⟩ := List.forall_mem_cons.mp hBlank
  have hDivider : Scan.isDivider c = true := by
    unfold Scan.isDivider
    rw [hFirst, Bool.true_or]
  have hStart : Scan.start c = ([], .idle) := if_pos hFirst
  have hCut : Scan.scanner.feed .idle (line.toList ++ [c]) = .ok (ts, .idle) := by
    rw [feed_divider h hDivider, hStart, List.append_nil]
  have hAll := Transducer.feed_append_of_ok hCut (Scan.feed_idle_blanks hRest)
  rwa [List.append_assoc, List.singleton_append, List.append_nil] at hAll

/-- What follows the blanks is read as a line of its own. -/
theorem tokenize_behind_blanks {first blanks : String} {ts : List Token}
    (h : tokenize first = .ok ts) (hBlank : ∀ c ∈ blanks.toList, isBlank c = true)
    (hSome : blanks ≠ "") (second : String) :
    tokenize (first ++ blanks ++ second) = (tokenize second).map (ts ++ ·) := by
  have hChars : blanks.toList ≠ [] := fun hNil => hSome (String.toList_eq_nil_iff.mp hNil)
  unfold tokenize scan
  rw [String.toList_append, String.toList_append,
    Transducer.run_append_of_feed (feed_blanks h hBlank hChars)]

/--
**Splitting takes a line apart at blanks.** If the first part of a line can be split into
tokens and blanks follow it, at least one and of any kind, the line has the tokens of the first
part and then those of the second, and if the second part has none, the line is refused for the
same reason.
-/
theorem tokenize_divided {first blanks : String} {ts : List Token}
    (hFirst : tokenize first = .ok ts) (hBlank : ∀ c ∈ blanks.toList, isBlank c = true)
    (hSome : blanks ≠ "") (second : String) :
    (∀ us, tokenize second = .ok us → tokenize (first ++ blanks ++ second) = .ok (ts ++ us)) ∧
      ∀ e, tokenize second = .error e → tokenize (first ++ blanks ++ second) = .error e := by
  rw [tokenize_behind_blanks hFirst hBlank hSome]
  constructor
  · intro us hSecond
    rw [hSecond]
    rfl
  · intro e hSecond
    rw [hSecond]
    rfl

/-- Two halves of an operator stay apart, as do a word and the quotes behind it; and quotes that
are not closed are refused with the words before them. -/
theorem tokenize_divided_halves :
    tokenize ("echo a|" ++ "\t\u3000" ++ "|'b'") =
        .ok [⟨.word, "echo"⟩, ⟨.word, "a"⟩, ⟨.pipe, "|"⟩, ⟨.pipe, "|"⟩, ⟨.singleQuoted, "b"⟩] ∧
      tokenize ("echo a|" ++ "\t\u3000" ++ "'b") = .error .openQuote := by
  have hFirst : tokenize "echo a|" = .ok [⟨.word, "echo"⟩, ⟨.word, "a"⟩, ⟨.pipe, "|"⟩] := rfl
  have hBlank : ∀ c ∈ ("\t\u3000" : String).toList, isBlank c = true :=
    List.all_eq_true.mp (by decide)
  have hSome : "\t\u3000" ≠ "" := by decide
  exact ⟨(tokenize_divided hFirst hBlank hSome "|'b'").1 _ rfl,
    (tokenize_divided hFirst hBlank hSome "'b").2 _ rfl⟩

end MemShell.Token
