import MemShell.Token.Scan

/-!
# What a line is made of

Scanning a line loses nothing but blanks. The tokens of a line stand in it one after the
other, each by its spelling, and between the spellings there are only blanks (`Layout`).
A token's text alone does not tell how it was spelled. An operator and a word are their
own spelling, quotes and backslashes in the word included, but a text between double
quotes may have been spelled with escapes. Which text a span between double quotes stands
for is therefore a function of its own (`unescape?`), without the scanner: it has no value
if the span has a quote that is not escaped, or a backslash at the end that would escape
the closing quote.

The scanner gives out a token later than its first character was read. What it has read
and not given out is the beginning of one spelling, behind some blanks, and its mode tells
which (`Held`). One character extends this beginning, or completes it, or completes it and
begins the next (`held_step`); then the characters of the line are those given out and
those held, at any time (`held_feed`), and at the end none is held.

## Main results

* `unescape?_append` — spans of double quotes are read piece by piece.
* `held_step`, `held_feed` — no character is lost.
* `layout_of_tokenize` — the line of a list of tokens.
-/

namespace MemShell

/-- The spelling of an operator. -/
def TokenKind.symbol? : TokenKind → Option String
  | .pipe => some "|"
  | .and => some "&&"
  | .or => some "||"
  | .redirect => some ">"
  | .append => some ">>"
  | .semicolon => some ";"
  | .word | .doubleQuoted | .singleQuoted => none

namespace Token

open Scan Text

/-! ## Spellings -/

/-- The text that is spelled so between double quotes, if the quotes end behind it and not
before. Only a quote and a backslash can be escaped. -/
def unescape? : List Char → Option (List Char)
  | [] => some []
  | [c] => if c = '"' ∨ c = '\\' then none else some [c]
  | c :: d :: cs =>
      if c = '"' then none
      else if c = '\\' then
        (unescape? cs).map fun text => if d = '"' ∨ d = '\\' then d :: text else c :: d :: text
      else (unescape? (d :: cs)).map (c :: ·)

/-- The text that is spelled so between quotes. -/
def unquote? : Quote → List Char → Option (List Char)
  | .single, cs => if '\'' ∈ cs then none else some cs
  | .double, cs => unescape? cs

/-- Texts in which blanks and operators stand only inside quotes. -/
inductive WordText : List Char → Prop
  | nil : WordText []
  | ordinary {c : Char} {cs : List Char} (hBlank : isBlank c = false)
      (hOperator : isOperatorChar c = false) (hDouble : c ≠ '"') (hSingle : c ≠ '\'')
      (hRest : WordText cs) : WordText (c :: cs)
  | quoted {q : Quote} {span text cs : List Char} (hSpan : unquote? q span = some text)
      (hRest : WordText cs) : WordText (q.mark :: span ++ q.mark :: cs)

structure IsWord (cs : List Char) : Prop where
  ne_nil : cs ≠ []
  first : ∀ c ∈ cs.head?, c ≠ '"' ∧ c ≠ '\'' ∧ isOperatorChar c = false
  text : WordText cs

/-- How a token can stand in a line. -/
inductive Spelling : Token → List Char → Prop
  | operator {kind : TokenKind} {symbol : String} (hSymbol : kind.symbol? = some symbol) :
      Spelling ⟨kind, symbol⟩ symbol.toList
  | word {value : String} (hWord : IsWord value.toList) : Spelling ⟨.word, value⟩ value.toList
  | single {value : String} (hValue : '\'' ∉ value.toList) :
      Spelling ⟨.singleQuoted, value⟩ ('\'' :: value.toList ++ ['\''])
  | double {value : String} {span : List Char} (hSpan : unescape? span = some value.toList) :
      Spelling ⟨.doubleQuoted, value⟩ ('"' :: span ++ ['"'])

def AllBlank (cs : List Char) : Prop :=
  ∀ c ∈ cs, isBlank c = true

/-- The characters of a line: its tokens in order, with blanks before, between and behind
them. -/
inductive Layout : List Token → List Char → Prop
  | nil {blanks : List Char} (hBlanks : AllBlank blanks) : Layout [] blanks
  | cons {t : Token} {ts : List Token} {blanks spelling rest : List Char}
      (hBlanks : AllBlank blanks) (hSpelling : Spelling t spelling) (hRest : Layout ts rest) :
      Layout (t :: ts) (blanks ++ spelling ++ rest)

/-! ## Spans -/

section Spans

variable {q : Quote} {c d : Char} {span span' text text' : List Char}

theorem unescape?_cons (hDouble : c ≠ '"') (hBackslash : c ≠ '\\') (span : List Char) :
    unescape? (c :: span) = (unescape? span).map (c :: ·) := by
  cases span with
  | nil => simp [unescape?, hDouble, hBackslash]
  | cons d span => simp [unescape?, hDouble, hBackslash]

/-- Two spans in a row are a span. -/
theorem unescape?_append (h : unescape? span = some text) (h' : unescape? span' = some text') :
    unescape? (span ++ span') = some (text ++ text') := by
  fun_induction unescape? span generalizing text with
  | case1 =>
      obtain rfl := Option.some.inj h
      exact h'
  | case2 c hEnds => cases h
  | case3 c hPlain =>
      obtain rfl := Option.some.inj h
      rw [List.singleton_append, unescape?_cons (fun h => hPlain (.inl h)) (fun h => hPlain (.inr h)),
        h']
      rfl
  | case4 d span => cases h
  | case5 d span hDouble ih =>
      obtain ⟨inner, hInner, rfl⟩ := Option.map_eq_some_iff.mp h
      simp only [List.cons_append, unescape?, hDouble, if_false, if_true, ih hInner]
      split <;> rfl
  | case6 c d span hDouble hBackslash ih =>
      obtain ⟨inner, hInner, rfl⟩ := Option.map_eq_some_iff.mp h
      rw [List.cons_append, unescape?_cons hDouble hBackslash, ih hInner]
      rfl

/-- A span goes on with any character but its quote, and with a backslash only in single
quotes. -/
theorem unquote?_concat (h : unquote? q span = some text) (hMark : c ≠ q.mark)
    (hPlain : ¬ (q = .double ∧ c = '\\')) :
    unquote? q (span ++ [c]) = some (text ++ [c]) := by
  cases q with
  | single =>
      have hNot : c ≠ '\'' := hMark
      have hSpan : '\'' ∉ span ∧ span = text := by simpa [unquote?] using h
      rw [← hSpan.2]
      simp [unquote?, hSpan.1, Ne.symm hNot]
  | double =>
      have hDouble : c ≠ '"' := hMark
      have hBackslash : c ≠ '\\' := fun h => hPlain ⟨rfl, h⟩
      exact unescape?_append h (by simp [unescape?, hDouble, hBackslash])

/-- A backslash in double quotes is read with the character behind it. -/
theorem unquote?_escape (h : unquote? .double span = some text) (d : Char) :
    unquote? .double (span ++ ['\\', d]) =
      some (text ++ if d = '"' ∨ d = '\\' then [d] else ['\\', d]) := by
  exact unescape?_append h rfl

theorem spelling_quoted {value : String} (h : unquote? q span = some value.toList) :
    Spelling ⟨q.kind, value⟩ (q.mark :: span ++ [q.mark]) := by
  cases q with
  | single =>
      have hSpan : '\'' ∉ span ∧ span = value.toList := by simpa [unquote?] using h
      rw [hSpan.2]
      exact .single (hSpan.2 ▸ hSpan.1)
  | double => exact .double h

end Spans

theorem spelling_pipe : Spelling ⟨.pipe, "|"⟩ ['|'] :=
  .operator rfl

theorem spelling_or : Spelling ⟨.or, "||"⟩ ['|', '|'] :=
  .operator rfl

theorem spelling_redirect : Spelling ⟨.redirect, ">"⟩ ['>'] :=
  .operator rfl

theorem spelling_append : Spelling ⟨.append, ">>"⟩ ['>', '>'] :=
  .operator rfl

/-! ## Words -/

theorem WordText.append {cs cs' : List Char} (h : WordText cs) (h' : WordText cs') :
    WordText (cs ++ cs') := by
  induction h with
  | nil => exact h'
  | ordinary hBlank hOperator hDouble hSingle _ ih =>
      exact .ordinary hBlank hOperator hDouble hSingle ih
  | quoted hSpan _ ih =>
      simp only [List.cons_append, List.append_assoc]
      exact .quoted hSpan ih

theorem IsWord.append {cs cs' : List Char} (h : IsWord cs) (h' : WordText cs') :
    IsWord (cs ++ cs') where
  ne_nil := by simp [h.ne_nil]
  first := by
    intro c hc
    obtain ⟨d, rest, hCs⟩ := List.exists_cons_of_ne_nil h.ne_nil
    apply h.first c
    rw [hCs] at hc ⊢
    exact hc
  text := h.text.append h'

/-! ## Layouts -/

theorem AllBlank.append {cs cs' : List Char} (h : AllBlank cs) (h' : AllBlank cs') :
    AllBlank (cs ++ cs') := by
  intro c hc
  rcases List.mem_append.mp hc with hc | hc
  · exact h c hc
  · exact h' c hc

theorem Layout.append {ts ts' : List Token} {cs cs' : List Char} (h : Layout ts cs)
    (h' : Layout ts' cs') : Layout (ts ++ ts') (cs ++ cs') := by
  induction h with
  | nil hBlanks =>
      -- the blanks come before the first token of the second line
      cases h' with
      | nil hBlanks' => exact .nil (hBlanks.append hBlanks')
      | cons hBlanks' hSpelling hRest =>
          simp only [← List.append_assoc]
          exact .cons (hBlanks.append hBlanks') hSpelling hRest
  | cons hBlanks hSpelling _ ih =>
      rw [List.append_assoc]
      exact .cons hBlanks hSpelling ih

theorem Layout.single {t : Token} {blanks spelling : List Char} (hBlanks : AllBlank blanks)
    (hSpelling : Spelling t spelling) : Layout [t] (blanks ++ spelling) := by
  have hNone : Layout [] [] := .nil (by simp [AllBlank])
  have hLine := Layout.cons hBlanks hSpelling hNone
  rwa [List.append_nil] at hLine

/-! ## What the scanner holds -/

/-- The spelling of a quoted text, or of a word that has a quote open, up to here. -/
def Inside (inWord : Bool) (q : Quote) (read cs : List Char) : Prop :=
  ∃ front span text, cs = front ++ q.mark :: span ∧ unquote? q span = some text ∧
    if inWord then IsWord front ∧ read.reverse = cs else front = [] ∧ read.reverse = text

/-- The spelling that a mode has read a part of, up to here. -/
def Begun : Mode → List Char → Prop
  | .idle, cs => cs = []
  | .bar, cs => cs = ['|']
  | .ampersand, cs => cs = ['&']
  | .angle, cs => cs = ['>']
  | .word read, cs => read.reverse = cs ∧ IsWord cs
  | .quoted inWord q read, cs => Inside inWord q read cs
  | .escape inWord read, cs => ∃ before, cs = before ++ ['\\'] ∧ Inside inWord .double read before

/-- What was read and is not given out: blanks, and the spelling that has begun. -/
def Held (m : Mode) (cs : List Char) : Prop :=
  ∃ blanks begun, cs = blanks ++ begun ∧ AllBlank blanks ∧ Begun m begun

/-- What was held and one more character, sorted: tokens are given out, and the rest is held. -/
def Sorted (cs : List Char) (out : List Token) (m : Mode) : Prop :=
  ∃ given held, cs = given ++ held ∧ Layout out given ∧ Held m held

section Steps

variable {m : Mode} {t : Token} {c : Char} {blanks cs : List Char}

theorem sorted_begun (hBlanks : AllBlank blanks) (hBegun : Begun m cs) :
    Sorted (blanks ++ cs) [] m :=
  ⟨[], blanks ++ cs, rfl, .nil (by simp [AllBlank]), blanks, cs, rfl, hBlanks, hBegun⟩

theorem sorted_complete (hBlanks : AllBlank blanks) (hSpelling : Spelling t cs) :
    Sorted (blanks ++ cs) [t] .idle :=
  ⟨blanks ++ cs, [], (List.append_nil _).symm, .single hBlanks hSpelling, [], [], rfl,
    by simp [AllBlank], rfl⟩

/-- Between tokens, a character is a blank, an operator or begins a spelling. -/
theorem sorted_start (hBlanks : AllBlank blanks) (c : Char) :
    Sorted (blanks ++ [c]) (start c).1 (start c).2 := by
  unfold start
  split
  case isTrue hBlank =>
    have hMore : AllBlank (blanks ++ [c]) := hBlanks.append (by simpa [AllBlank] using hBlank)
    rw [← List.append_nil (blanks ++ [c])]
    exact sorted_begun hMore rfl
  case isFalse hBlank =>
  split
  case isTrue hBar => exact sorted_begun hBlanks (by rw [hBar]; rfl)
  case isFalse hBar =>
  split
  case isTrue hAmpersand => exact sorted_begun hBlanks (by rw [hAmpersand]; rfl)
  case isFalse hAmpersand =>
  split
  case isTrue hAngle => exact sorted_begun hBlanks (by rw [hAngle]; rfl)
  case isFalse hAngle =>
  split
  case isTrue hSemicolon =>
    rw [hSemicolon]
    exact sorted_complete hBlanks (.operator rfl)
  case isFalse hSemicolon =>
  have hOperator : isOperatorChar c = false := by
    simp [isOperatorChar, hBar, hAmpersand, hAngle, hSemicolon]
  by_cases hDouble : c = '"'
  · subst hDouble
    exact sorted_begun hBlanks ⟨[], [], [], rfl, rfl, rfl, rfl⟩
  by_cases hSingle : c = '\''
  · subst hSingle
    exact sorted_begun hBlanks ⟨[], [], [], rfl, rfl, rfl, rfl⟩
  have hQuote : quoteOf? c = none := by simp [quoteOf?, hDouble, hSingle]
  have hText : WordText [c] := .ordinary (by simpa using hBlank) hOperator hDouble hSingle .nil
  rw [hQuote]
  refine sorted_begun hBlanks ⟨rfl, by simp, ?_, hText⟩
  intro d hd
  obtain rfl := Option.some.inj hd
  exact ⟨hDouble, hSingle, hOperator⟩

/-- A character behind a complete spelling. -/
theorem sorted_startAfter (hBlanks : AllBlank blanks) (hSpelling : Spelling t cs) (c : Char) :
    Sorted (blanks ++ cs ++ [c]) (startAfter t c).1 (startAfter t c).2 := by
  have hNone : AllBlank [] := by simp [AllBlank]
  obtain ⟨given, held, hSplit, hLayout, hHeld⟩ := sorted_start hNone c
  refine ⟨blanks ++ cs ++ given, held, ?_, .cons hBlanks hSpelling hLayout, hHeld⟩
  rw [List.append_assoc (blanks ++ cs), ← hSplit]
  rfl

/-- A character behind one that is an operator, alone and doubled. -/
theorem sorted_doubled {one two : Token} {mark : Char} (hBlanks : AllBlank blanks)
    (hOne : Spelling one [mark]) (hTwo : Spelling two [mark, mark]) (c : Char) :
    Sorted (blanks ++ [mark] ++ [c]) (if c = mark then ([two], .idle) else startAfter one c).1
      (if c = mark then ([two], .idle) else startAfter one c).2 := by
  by_cases hSame : c = mark
  · rw [if_pos hSame, hSame, List.append_assoc]
    exact sorted_complete hBlanks hTwo
  · rw [if_neg hSame]
    exact sorted_startAfter hBlanks hOne c

/-- Inside quotes, a character belongs to the span or ends it. -/
theorem sorted_quoted {inWord : Bool} {q : Quote} {read : List Char} {out : List Token}
    (hBlanks : AllBlank blanks) (hInside : Inside inWord q read cs)
    (hStep : Scan.step (.quoted inWord q read) c = .ok (out, m)) :
    Sorted (blanks ++ (cs ++ [c])) out m := by
  have hBegun := hInside
  obtain ⟨front, span, text, rfl, hSpan, hRead⟩ := hInside
  rw [Scan.step] at hStep
  by_cases hMark : c = q.mark
  · rw [if_pos hMark] at hStep
    subst hMark
    cases inWord with
    | true =>
        obtain ⟨hFront, hRead⟩ := hRead
        cases hStep
        have hQuoted : WordText (q.mark :: span ++ [q.mark]) := .quoted hSpan .nil
        have hWord := hFront.append hQuoted
        refine sorted_begun hBlanks ⟨?_, by simpa using hWord⟩
        rw [List.reverse_cons, hRead]
    | false =>
        obtain ⟨rfl, hRead⟩ := hRead
        cases hStep
        have hValue : unquote? q span = some (String.ofList read.reverse).toList := by
          rw [String.toList_ofList, hRead, hSpan]
        exact sorted_complete hBlanks (spelling_quoted hValue)
  · rw [if_neg hMark] at hStep
    by_cases hEscape : q = .double ∧ c = '\\'
    · rw [if_pos hEscape] at hStep
      cases hStep
      obtain ⟨rfl, rfl⟩ := hEscape
      exact sorted_begun hBlanks ⟨_, rfl, hBegun⟩
    · rw [if_neg hEscape] at hStep
      cases hStep
      have hMore := unquote?_concat hSpan hMark hEscape
      refine sorted_begun hBlanks ⟨front, span ++ [c], text ++ [c], by simp, hMore, ?_⟩
      cases inWord with
      | true =>
          obtain ⟨hFront, hRead⟩ := hRead
          exact ⟨hFront, by rw [List.reverse_cons, hRead]⟩
      | false =>
          obtain ⟨hFront, hRead⟩ := hRead
          exact ⟨hFront, by rw [List.reverse_cons, hRead]⟩

/-- Behind a backslash in double quotes, any character belongs to the span. -/
theorem sorted_escape {inWord : Bool} {read : List Char} {out : List Token}
    (hBlanks : AllBlank blanks) (hInside : Inside inWord .double read cs)
    (hStep : Scan.step (.escape inWord read) c = .ok (out, m)) :
    Sorted (blanks ++ (cs ++ ['\\', c])) out m := by
  obtain ⟨front, span, text, rfl, hSpan, hRead⟩ := hInside
  have hMore := unquote?_escape hSpan c
  rw [Scan.step] at hStep
  cases inWord with
  | true =>
      obtain ⟨hFront, hRead⟩ := hRead
      rw [if_neg (by simp)] at hStep
      cases hStep
      refine sorted_begun hBlanks ⟨front, span ++ ['\\', c], _, by simp, hMore, hFront, ?_⟩
      rw [List.reverse_cons, List.reverse_cons, hRead]
      simp
  | false =>
      obtain ⟨hFront, hRead⟩ := hRead
      by_cases hEscaped : c = '"' ∨ c = '\\'
      · rw [if_pos ⟨hEscaped, rfl⟩] at hStep
        cases hStep
        rw [if_pos hEscaped] at hMore
        refine sorted_begun hBlanks ⟨front, span ++ ['\\', c], _, by simp, hMore, hFront, ?_⟩
        rw [List.reverse_cons, hRead]
      · rw [if_neg (fun h => hEscaped h.1)] at hStep
        cases hStep
        rw [if_neg hEscaped] at hMore
        refine sorted_begun hBlanks ⟨front, span ++ ['\\', c], _, by simp, hMore, hFront, ?_⟩
        rw [List.reverse_cons, List.reverse_cons, hRead]
        simp

theorem spelling_ofWord {read : List Char} (hWord : IsWord read.reverse) :
    Spelling (ofWord read) read.reverse := by
  have hSame : (String.ofList read.reverse).toList = read.reverse := String.toList_ofList
  rw [← hSame] at hWord ⊢
  exact .word hWord

/-- In a word, a character belongs to it or stands behind it. -/
theorem sorted_word {read : List Char} {out : List Token} (hBlanks : AllBlank blanks)
    (hWord : IsWord read.reverse) (hStep : Scan.step (.word read) c = .ok (out, m)) :
    Sorted (blanks ++ (read.reverse ++ [c])) out m := by
  rw [Scan.step] at hStep
  by_cases hEnds : (isBlank c || isOperatorChar c) = true
  · rw [if_pos hEnds] at hStep
    cases hStep
    rw [← List.append_assoc]
    exact sorted_startAfter hBlanks (spelling_ofWord hWord) c
  · rw [if_neg hEnds] at hStep
    by_cases hDouble : c = '"'
    · subst hDouble
      cases hStep
      exact sorted_begun hBlanks ⟨read.reverse, [], [], rfl, rfl, hWord, List.reverse_cons⟩
    by_cases hSingle : c = '\''
    · subst hSingle
      cases hStep
      exact sorted_begun hBlanks ⟨read.reverse, [], [], rfl, rfl, hWord, List.reverse_cons⟩
    have hQuote : quoteOf? c = none := by simp [quoteOf?, hDouble, hSingle]
    rw [hQuote] at hStep
    cases hStep
    have hPlain : isBlank c = false ∧ isOperatorChar c = false := by simpa using hEnds
    have hText : WordText [c] := .ordinary hPlain.1 hPlain.2 hDouble hSingle .nil
    exact sorted_begun hBlanks ⟨List.reverse_cons, hWord.append hText⟩

/-- **One character** extends the spelling that has begun, completes it, or completes it and
begins the next. -/
theorem held_step {m' : Mode} {out : List Token} (hHeld : Held m cs)
    (hStep : scanner.step m c = .ok (out, m')) : Sorted (cs ++ [c]) out m' := by
  obtain ⟨blanks, begun, rfl, hBlanks, hBegun⟩ := hHeld
  replace hStep : Scan.step m c = .ok (out, m') := hStep
  cases m with
  | idle =>
      obtain rfl : begun = [] := hBegun
      have hStart : start c = (out, m') := Except.ok.inj hStep
      have hSorted := sorted_start hBlanks c
      rw [hStart] at hSorted
      rwa [List.append_nil]
  | bar =>
      obtain rfl : begun = ['|'] := hBegun
      have hSorted := sorted_doubled hBlanks spelling_pipe spelling_or c
      rwa [Except.ok.inj hStep] at hSorted
  | ampersand =>
      obtain rfl : begun = ['&'] := hBegun
      rw [Scan.step] at hStep
      by_cases hAmpersand : c = '&'
      · rw [if_pos hAmpersand] at hStep
        cases hStep
        rw [hAmpersand, List.append_assoc]
        exact sorted_complete hBlanks (.operator rfl)
      · rw [if_neg hAmpersand] at hStep
        cases hStep
  | angle =>
      obtain rfl : begun = ['>'] := hBegun
      have hSorted := sorted_doubled hBlanks spelling_redirect spelling_append c
      rwa [Except.ok.inj hStep] at hSorted
  | word read =>
      obtain ⟨rfl, hWord⟩ := hBegun
      rw [List.append_assoc]
      exact sorted_word hBlanks hWord hStep
  | quoted inWord q read =>
      rw [List.append_assoc]
      exact sorted_quoted hBlanks hBegun hStep
  | escape inWord read =>
      obtain ⟨before, rfl, hInside⟩ := hBegun
      rw [List.append_assoc, List.append_assoc]
      exact sorted_escape hBlanks hInside hStep

end Steps

/-! ## Whole lines -/

theorem held_feed {m m' : Mode} {line cs : List Char} {out : List Token} (hHeld : Held m cs)
    (hFeed : scanner.feed m line = .ok (out, m')) : Sorted (cs ++ line) out m' := by
  induction line generalizing m cs out with
  | nil =>
      cases hFeed
      exact ⟨[], cs, List.append_nil _, .nil (by simp [AllBlank]), hHeld⟩
  | cons c line ih =>
      obtain ⟨first, m₁, rest, hStep, hRest, rfl⟩ := Transducer.feed_cons_eq_ok_iff.mp hFeed
      obtain ⟨given, held, hSplit, hFirst, hHeld₁⟩ := held_step hHeld hStep
      obtain ⟨given', held', hSplit', hLater, hHeld'⟩ := ih hHeld₁ hRest
      refine ⟨given ++ given', held', ?_, hFirst.append hLater, hHeld'⟩
      calc cs ++ c :: line = (cs ++ [c]) ++ line := by simp
        _ = given ++ (held ++ line) := by rw [hSplit, List.append_assoc]
        _ = (given ++ given') ++ held' := by rw [hSplit', List.append_assoc]

theorem layout_finish {m : Mode} {cs : List Char} {out : List Token} (hHeld : Held m cs)
    (hFinish : scanner.finish m = .ok out) : Layout out cs := by
  obtain ⟨blanks, begun, rfl, hBlanks, hBegun⟩ := hHeld
  cases m with
  | idle =>
      obtain rfl : begun = [] := hBegun
      cases hFinish
      rw [List.append_nil]
      exact .nil hBlanks
  | bar =>
      obtain rfl : begun = ['|'] := hBegun
      cases hFinish
      exact .single hBlanks spelling_pipe
  | angle =>
      obtain rfl : begun = ['>'] := hBegun
      cases hFinish
      exact .single hBlanks spelling_redirect
  | word read =>
      obtain ⟨rfl, hWord⟩ := hBegun
      cases hFinish
      exact .single hBlanks (spelling_ofWord hWord)
  | ampersand => cases hFinish
  | quoted inWord q read => cases hFinish
  | escape inWord read => cases hFinish

theorem Layout.isWord {ts : List Token} {cs : List Char} (h : Layout ts cs) :
    ∀ t ∈ ts, t.kind = .word → IsWord t.value.toList := by
  induction h with
  | nil => simp
  | cons _ hSpelling _ ih =>
      intro u hu hKind
      rcases List.mem_cons.mp hu with rfl | hu
      · cases hSpelling with
        | operator hSymbol =>
            obtain rfl : _ = TokenKind.word := hKind
            cases hSymbol
        | word hWord => exact hWord
        | single => cases hKind
        | double => cases hKind
      · exact ih u hu hKind

/-- Characters that have tokens consist of their spellings. -/
theorem layout_of_scan {cs : List Char} {ts : List Token} (hTokens : scan cs = .ok ts) :
    Layout ts cs := by
  have hIdle : Held .idle [] := ⟨[], [], rfl, by simp [AllBlank], rfl⟩
  obtain ⟨out, m, last, hFeed, hFinish, rfl⟩ := Transducer.run_eq_ok_iff.mp hTokens
  obtain ⟨given, held, hSplit, hGiven, hHeld⟩ := held_feed hIdle hFeed
  rw [show cs = given ++ held from hSplit]
  exact hGiven.append (layout_finish hHeld hFinish)

/--
**Nothing is lost.** A line that has tokens consists of their spellings, in order, with
only blanks before, between and behind them. A word is spelled as it is; it is not empty,
does not start with a quote or an operator, and has blanks and operators only inside quotes.
-/
theorem layout_of_tokenize {line : String} {ts : List Token} (hTokens : tokenize line = .ok ts) :
    Layout ts line.toList ∧ ∀ t ∈ ts, t.kind = .word → IsWord t.value.toList := by
  have hLayout := layout_of_scan hTokens
  exact ⟨hLayout, hLayout.isWord⟩

/-- A word with quotes in it, operators without blanks, and a span that ends with an escaped
quote and an escaped backslash. -/
def escapedLine : String :=
  "a\"b |\\\"\"'c'|| 'x\\' >>\"y\\z\\\"\\\\\";"

def escapedTokens : List Token :=
  [⟨.word, "a\"b |\\\"\"'c'"⟩, ⟨.or, "||"⟩, ⟨.singleQuoted, "x\\"⟩, ⟨.append, ">>"⟩,
    ⟨.doubleQuoted, "y\\z\"\\"⟩, ⟨.semicolon, ";"⟩]

theorem layout_of_tokenize_escapedLine :
    tokenize escapedLine = .ok escapedTokens ∧ Layout escapedTokens escapedLine.toList ∧
      ∀ t ∈ escapedTokens, t.kind = .word → IsWord t.value.toList := by
  have hTokens : tokenize escapedLine = .ok escapedTokens := by rfl
  exact ⟨hTokens, layout_of_tokenize hTokens⟩

end Token
end MemShell
