import MemShell.Proofs.CommandPositions
import MemShell.Session

/-!
# Lines joined by a semicolon

Each stage of reading a line remembers something along the way: the scanner what is
open, the reader of aliases its position and the names it must not replace again,
the reader of trees the tree it has begun. A semicolon resets all of it, so two
lines joined by one are read as each of them is read by itself.

The conditions are those of the semicolon. It has to end a tree: the first line has
one, and does not end with a semicolon already. What counts are the tokens after
expansion, since an alias can stand for nothing or for a text that ends with a
semicolon.

## Main results

* `tokenize_semicolon`, `expandAliases_semicolon`, `expandVariablesList_semicolon`,
  `build_semicolon` — each stage at a semicolon.
* `parse_semicolon` — when joined lines can be read, and as what.
-/

namespace MemShell

namespace Token

/-! ## Splitting into tokens -/

namespace Scan

/-- Characters that end a token and are never the second half of an operator. -/
def isDivider (c : Char) : Bool :=
  Text.isBlank c || c = ';'

/-- Where a line could end, a divider ends what is open and is read from there. -/
theorem step_of_finish {m : Mode} {out : List Token} (hFinish : finish m = .ok out) {c : Char}
    (hDivider : isDivider c = true) : step m c = .ok (out ++ (start c).1, (start c).2) := by
  cases m with
  | idle =>
      cases hFinish
      rfl
  | bar =>
      cases hFinish
      have hBar : c ≠ '|' := by
        rintro rfl
        revert hDivider
        decide
      rw [step, if_neg hBar]
      rfl
  | ampersand => cases hFinish
  | angle =>
      cases hFinish
      have hAngle : c ≠ '>' := by
        rintro rfl
        revert hDivider
        decide
      rw [step, if_neg hAngle]
      rfl
  | word read =>
      cases hFinish
      have hEnds : (Text.isBlank c || isOperatorChar c) = true := by
        rcases Bool.or_eq_true_iff.mp hDivider with hBlank | hSemicolon
        · simp [hBlank]
        · simp [isOperatorChar, of_decide_eq_true hSemicolon]
      rw [step, if_pos hEnds]
      rfl
  | quoted inWord q read => cases hFinish
  | escape inWord read => cases hFinish

end Scan

/-- A line that has tokens, up to a divider after it. -/
theorem feed_divider {line : String} {ts : List Token} (h : tokenize line = .ok ts) {c : Char}
    (hDivider : Scan.isDivider c = true) :
    Scan.scanner.feed .idle (line.toList ++ [c]) =
      .ok (ts ++ (Scan.start c).1, (Scan.start c).2) := by
  obtain ⟨before, m, rest, hFeed, hFinish, rfl⟩ := Transducer.run_eq_ok_iff.mp h
  have hStep : Scan.scanner.step m c = .ok (rest ++ (Scan.start c).1, (Scan.start c).2) :=
    Scan.step_of_finish hFinish hDivider
  have hLast : Scan.scanner.feed m [c] = .ok (rest ++ (Scan.start c).1, (Scan.start c).2) := by
    simp [Transducer.feed, hStep]
  rw [Transducer.feed_append_of_ok hFeed hLast, List.append_assoc]

def semicolon : Token :=
  ⟨.semicolon, ";"⟩

/-- Splitting starts afresh after a semicolon. -/
theorem tokenize_semicolon {first : String} {ts : List Token} (h : tokenize first = .ok ts)
    (second : String) :
    tokenize (first ++ ";" ++ second) = (tokenize second).map (ts ++ semicolon :: ·) := by
  have hFeed : Scan.scanner.feed .idle (first.toList ++ [';']) = .ok (ts ++ [semicolon], .idle) :=
    feed_divider h rfl
  have hText : (first ++ ";" ++ second).toList = first.toList ++ [';'] ++ second.toList := by
    rw [String.toList_append, String.toList_append]
    rfl
  unfold tokenize scan
  rw [hText, Transducer.run_append_of_feed hFeed]
  simp

/-! ## Expansion -/

/-- A semicolon puts the reader of aliases back at a command name. -/
theorem expandAliases_semicolon {aliases : Table String String} {ts us out : List Token} :
    expandAliases aliases (ts ++ semicolon :: us) = .ok out ↔
      ∃ first rest, expandAliases aliases ts = .ok first ∧
        expandAliases aliases us = .ok rest ∧ out = first ++ semicolon :: rest := by
  have hKept : ∀ {p : Position}, p = .command → semicolon.kind = .word →
      aliases.get? semicolon.value = none := fun _ hWord => by cases hWord
  simp only [expandAliases, ← expands_iff, expands_append_iff]
  constructor
  · rintro ⟨first, later, hFirst, hLater, rfl⟩
    generalize hAfter : Position.after .command ts = p at hLater
    cases hLater with
    | keep _ hRest => exact ⟨first, _, hFirst, hRest, rfl⟩
    | replace hWord => cases hWord
  · rintro ⟨first, rest, hFirst, hRest, rfl⟩
    exact ⟨first, semicolon :: rest, hFirst, .keep hKept hRest, rfl⟩

/-- A semicolon has no references. -/
theorem expandVariablesList_semicolon {env : Table String String} {ts us out : List Token} :
    expandVariablesList env (ts ++ semicolon :: us) = .ok out ↔
      ∃ first rest, expandVariablesList env ts = .ok first ∧
        expandVariablesList env us = .ok rest ∧ out = first ++ semicolon :: rest := by
  have hSemicolon : semicolon.expandVariables env = .ok semicolon := rfl
  unfold expandVariablesList
  rw [List.mapM_append, List.mapM_cons, hSemicolon]
  cases ts.mapM (Token.expandVariables env) with
  | error e => simp [bind, Except.bind]
  | ok first =>
      cases us.mapM (Token.expandVariables env) with
      | error e => simp [bind, Except.bind]
      | ok rest => simp [bind, Except.bind, pure, Except.pure, eq_comm]

/-- The last token is a semicolon. -/
def EndsInSemicolon (ts : List Token) : Prop :=
  ∃ t ∈ ts.getLast?, t.kind = .semicolon

end Token

/-! ## Building trees -/

namespace Tree

open Parse Token

/-- Having read tokens, the reader has begun a tree unless there are none or a semicolon was
the last. -/
private theorem ne_fresh_iff {ts : List Token} {out : List Tree} {m : Mode}
    (hFeed : reader.feed .fresh ts = .ok (out, m)) :
    m ≠ .fresh ↔ ts ≠ [] ∧ ¬ EndsInSemicolon ts := by
  rcases List.eq_nil_or_concat ts with rfl | ⟨front, t, rfl⟩
  · cases hFeed
    simp
  · rw [List.concat_eq_append] at hFeed ⊢
    rw [Ne, feed_eq_fresh_iff hFeed]
    simp [EndsInSemicolon]

/-- A semicolon ends a tree, and building starts afresh after it. -/
theorem build_semicolon {ts us : List Token} {trees : List Tree} :
    build (ts ++ semicolon :: us) = .ok trees ↔
      ∃ first rest, build ts = .ok first ∧ first ≠ [] ∧ ¬ EndsInSemicolon ts ∧
        build us = .ok rest ∧ trees = first ++ rest := by
  constructor
  · intro h
    obtain ⟨out, m, last, hFeed, hFinish, rfl⟩ := Transducer.run_eq_ok_iff.mp h
    obtain ⟨before, m₁, later, hTs, hLater, rfl⟩ := Transducer.feed_append_eq_ok_iff.mp hFeed
    obtain ⟨given, m₂, rest, hStep, hUs, rfl⟩ := Transducer.feed_cons_eq_ok_iff.mp hLater
    have hRest : m₁.isRest = true := isRest_of_step_boundary rfl hStep
    cases m₁ with
    | rest o command args redirects =>
        rw [step_rest_semicolon rfl] at hStep
        cases hStep
        have hEnds := ((ne_fresh_iff hTs).mp (by simp)).2
        refine ⟨before ++ [o.close (ofRead command args redirects)], rest ++ last, ?_, by simp,
          hEnds, ?_, by simp⟩
        · exact Transducer.run_eq_ok_iff.mpr ⟨before, _, _, hTs, rfl, rfl⟩
        · exact Transducer.run_eq_ok_iff.mpr ⟨rest, m, last, hUs, hFinish, rfl⟩
    | _ => cases hRest
  · rintro ⟨first, rest, hFirst, hTree, hEnds, hRest, rfl⟩
    obtain ⟨before, m, last, hTs, hFinish, rfl⟩ := Transducer.run_eq_ok_iff.mp hFirst
    have hNil : ts ≠ [] := by
      rintro rfl
      cases hTs
      cases hFinish
      exact hTree rfl
    have hComplete := isRest_of_finish hFinish ((ne_fresh_iff hTs).mpr ⟨hNil, hEnds⟩)
    cases m with
    | rest o command args redirects =>
        cases hFinish
        have hStep : reader.feed (.rest o command args redirects) [semicolon] =
            .ok ([o.close (ofRead command args redirects)], .fresh) := rfl
        have hBoth := Transducer.feed_append_of_ok hTs hStep
        have hJoined := Transducer.run_append_of_feed hBoth us
        rw [List.append_assoc, List.singleton_append] at hJoined
        rw [build, hJoined, ← build, hRest]
        rfl
    | _ => cases hComplete

end Tree

/-! ## Whole lines -/

namespace Session

open Token

variable {σ : Type}

/-- The tokens of a line after expansion, from which its trees are built. -/
def readTokens (s : Session σ) (line : String) : Except LineError (List Token) := do
  let tokens ← (tokenize line).mapError .lexical
  let expanded ← (expandAliases s.aliases tokens).mapError .lexical
  expandVariablesList s.expansionEnv expanded

private theorem mapError_eq_ok_iff {ε ε' α : Type} {x : Except ε α} {f : ε → ε'} {a : α} :
    x.mapError f = .ok a ↔ x = .ok a := by
  constructor
  · intro h
    cases x with
    | error e => cases h
    | ok b =>
        cases h
        rfl
  · rintro rfl
    rfl

private theorem except_bind_eq_ok_iff {ε α β : Type} {x : Except ε α} {f : α → Except ε β} {b : β} :
    (x >>= f) = .ok b ↔ ∃ a, x = .ok a ∧ f a = .ok b := by
  constructor
  · intro h
    cases x with
    | error e => cases h
    | ok a => exact ⟨a, rfl, h⟩
  · rintro ⟨a, rfl, h⟩
    exact h

theorem readTokens_eq_ok_iff {s : Session σ} {line : String} {out : List Token} :
    s.readTokens line = .ok out ↔ ∃ ts expanded, tokenize line = .ok ts ∧
      expandAliases s.aliases ts = .ok expanded ∧
      expandVariablesList s.expansionEnv expanded = .ok out := by
  simp only [readTokens, except_bind_eq_ok_iff, mapError_eq_ok_iff, exists_and_left]

/-- Reading a line is expanding it and building trees. -/
theorem parse_eq (s : Session σ) (line : String) :
    s.parse line = s.readTokens line >>= fun ts => (Tree.build ts).mapError .parse := by
  simp only [parse, parseWith, readTokens, bind_assoc]

private theorem parse_eq_ok_iff {s : Session σ} {line : String} {trees : List Tree} :
    s.parse line = .ok trees ↔ ∃ ts, s.readTokens line = .ok ts ∧ Tree.build ts = .ok trees := by
  simp only [parse_eq, except_bind_eq_ok_iff, mapError_eq_ok_iff]

/-- Expansion of a line starts afresh after a semicolon. -/
theorem readTokens_semicolon {s : Session σ} {first second : String} {ts out : List Token}
    (h : tokenize first = .ok ts) :
    s.readTokens (first ++ ";" ++ second) = .ok out ↔
      ∃ before after, s.readTokens first = .ok before ∧ s.readTokens second = .ok after ∧
        out = before ++ semicolon :: after := by
  constructor
  · intro hJoined
    obtain ⟨all, expanded, hAll, hExpand, hFill⟩ := readTokens_eq_ok_iff.mp hJoined
    rw [tokenize_semicolon h] at hAll
    cases hSecond : tokenize second with
    | error e => simp [hSecond, Except.map] at hAll
    | ok us =>
        simp only [hSecond, Except.map, Except.ok.injEq] at hAll
        subst hAll
        obtain ⟨es, fs, hEs, hFs, rfl⟩ := expandAliases_semicolon.mp hExpand
        obtain ⟨before, after, hBefore, hAfter, rfl⟩ := expandVariablesList_semicolon.mp hFill
        exact ⟨before, after, readTokens_eq_ok_iff.mpr ⟨ts, es, h, hEs, hBefore⟩,
          readTokens_eq_ok_iff.mpr ⟨us, fs, hSecond, hFs, hAfter⟩, rfl⟩
  · rintro ⟨before, after, hFirst, hSecond, rfl⟩
    obtain ⟨ts', es, hTs', hEs, hBefore⟩ := readTokens_eq_ok_iff.mp hFirst
    obtain ⟨us, fs, hUs, hFs, hAfter⟩ := readTokens_eq_ok_iff.mp hSecond
    refine readTokens_eq_ok_iff.mpr ⟨ts' ++ semicolon :: us, es ++ semicolon :: fs, ?_, ?_, ?_⟩
    · rw [tokenize_semicolon hTs', hUs]
      rfl
    · exact expandAliases_semicolon.mpr ⟨es, fs, hEs, hFs, rfl⟩
    · exact expandVariablesList_semicolon.mpr ⟨before, after, hBefore, hAfter, rfl⟩

private theorem parse_semicolon_eq_ok_iff {s : Session σ} {first second : String}
    {ts : List Token} (h : tokenize first = .ok ts) {trees : List Tree} :
    s.parse (first ++ ";" ++ second) = .ok trees ↔
      ∃ us before after, s.readTokens first = .ok us ∧ Tree.build us = .ok before ∧
        before ≠ [] ∧ ¬ EndsInSemicolon us ∧ s.parse second = .ok after ∧
        trees = before ++ after := by
  simp only [parse_eq_ok_iff]
  constructor
  · rintro ⟨all, hAll, hBuild⟩
    obtain ⟨us, vs, hUs, hVs, rfl⟩ := (readTokens_semicolon h).mp hAll
    obtain ⟨before, after, hBefore, hTree, hEnds, hAfter, rfl⟩ := Tree.build_semicolon.mp hBuild
    exact ⟨us, before, after, hUs, hBefore, hTree, hEnds, ⟨vs, hVs, hAfter⟩, rfl⟩
  · rintro ⟨us, before, after, hUs, hBefore, hTree, hEnds, ⟨vs, hVs, hAfter⟩, rfl⟩
    exact ⟨us ++ semicolon :: vs, (readTokens_semicolon h).mpr ⟨us, vs, hUs, hVs, rfl⟩,
      Tree.build_semicolon.mpr ⟨before, after, hBefore, hTree, hEnds, hAfter, rfl⟩⟩

/--
**A semicolon composes lines.** If the first line can be split into tokens, the two lines
joined by a semicolon can be read exactly if the first is read as at least one tree, its
tokens after expansion do not end in a semicolon, and the second can be read. The trees
are then those of the first line followed by those of the second.
-/
theorem parse_semicolon (s : Session σ) {first : String}
    (hTokens : ∃ ts, tokenize first = .ok ts) (second : String) :
    ((∃ trees, s.parse (first ++ ";" ++ second) = .ok trees) ↔
      (∃ trees, s.parse first = .ok trees ∧ trees ≠ []) ∧
        (∀ ts, s.readTokens first = .ok ts → ¬ EndsInSemicolon ts) ∧
        ∃ trees, s.parse second = .ok trees) ∧
    ∀ trees, s.parse (first ++ ";" ++ second) = .ok trees →
      ∃ before after, s.parse first = .ok before ∧ s.parse second = .ok after ∧
        trees = before ++ after := by
  obtain ⟨ts, hTs⟩ := hTokens
  refine ⟨⟨?_, ?_⟩, ?_⟩
  · rintro ⟨trees, hJoined⟩
    obtain ⟨us, before, after, hUs, hBefore, hTree, hEnds, hAfter, -⟩ :=
      (parse_semicolon_eq_ok_iff hTs).mp hJoined
    refine ⟨⟨before, parse_eq_ok_iff.mpr ⟨us, hUs, hBefore⟩, hTree⟩, fun vs hVs => ?_,
      after, hAfter⟩
    rw [hUs] at hVs
    cases hVs
    exact hEnds
  · rintro ⟨⟨before, hFirst, hTree⟩, hEnds, after, hAfter⟩
    obtain ⟨us, hUs, hBefore⟩ := parse_eq_ok_iff.mp hFirst
    exact ⟨before ++ after, (parse_semicolon_eq_ok_iff hTs).mpr
      ⟨us, before, after, hUs, hBefore, hTree, hEnds us hUs, hAfter, rfl⟩⟩
  · intro trees hJoined
    obtain ⟨us, before, after, hUs, hBefore, -, -, hAfter, rfl⟩ :=
      (parse_semicolon_eq_ok_iff hTs).mp hJoined
    exact ⟨before, after, parse_eq_ok_iff.mpr ⟨us, hUs, hBefore⟩, hAfter, rfl⟩

/-- Aliases for two commands and for a text that ends with a semicolon. -/
def joinedSession : Session Unit :=
  .start (.ofList [("A", "a ; b")])
    (.ofList [("ll", "ls ; pwd"), ("end", "echo ;")]) ()

/-- What a name stands for decides: after `ll` a line can go on, after `end` it cannot. -/
theorem parse_semicolon_joined :
    (∃ ts, tokenize "ll $A" = .ok ts) ∧
      (∃ trees, joinedSession.parse ("ll $A" ++ ";" ++ "end") = .ok trees) ∧
      (∃ ts, tokenize "end" = .ok ts) ∧
      ¬ ∃ trees, joinedSession.parse ("end" ++ ";" ++ "ll") = .ok trees := by
  have hTokens : ∃ ts, tokenize "ll $A" = .ok ts := ⟨_, rfl⟩
  have hTokens' : ∃ ts, tokenize "end" = .ok ts := ⟨_, rfl⟩
  have hLl : Expands joinedSession.aliases .command [⟨.word, "ll"⟩, ⟨.word, "$A"⟩]
      ([⟨.word, "ls"⟩, ⟨.semicolon, ";"⟩, ⟨.word, "pwd"⟩] ++ [⟨.word, "$A"⟩]) :=
    .replace rfl rfl rfl (.keep (by decide) (.keep (by decide) (.keep (by decide) (.nil _ _))))
      (.keep (by decide) (.nil _ _))
  have hFirst : joinedSession.readTokens "ll $A" =
      .ok [⟨.word, "ls"⟩, ⟨.semicolon, ";"⟩, ⟨.word, "pwd"⟩, ⟨.word, "a ; b"⟩] :=
    readTokens_eq_ok_iff.mpr ⟨_, _, rfl, hLl.expandLive_eq, rfl⟩
  have hAlias : Expands joinedSession.aliases .command [⟨.word, "end"⟩]
      ([⟨.word, "echo"⟩, ⟨.semicolon, ";"⟩] ++ []) :=
    .replace rfl rfl rfl (.keep (by decide) (.keep (by decide) (.nil _ _))) (.nil _ _)
  have hEnd : joinedSession.readTokens "end" =
      .ok [⟨.word, "echo"⟩, ⟨.semicolon, ";"⟩] :=
    readTokens_eq_ok_iff.mpr ⟨_, _, rfl, hAlias.expandLive_eq, rfl⟩
  refine ⟨hTokens, ?_, hTokens', ?_⟩
  · refine (parse_semicolon joinedSession hTokens "end").1.mpr ⟨?_, ?_, ?_⟩
    · exact ⟨_, parse_eq_ok_iff.mpr ⟨_, hFirst, rfl⟩, by simp⟩
    · intro ts hTs
      rw [hFirst] at hTs
      cases hTs
      simp [EndsInSemicolon]
    · exact ⟨_, parse_eq_ok_iff.mpr ⟨_, hEnd, rfl⟩⟩
  · intro hJoined
    have hNot := ((parse_semicolon joinedSession hTokens' "ll").1.mp hJoined).2.1 _ hEnd
    exact hNot ⟨_, rfl, rfl⟩

end Session

end MemShell
