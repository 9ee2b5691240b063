import MemShell.Builtin.Naming
import MemShell.Proofs.AliasChains
import MemShell.Proofs.MergedChanges
import MemShell.Proofs.TokenSpellings
import MemShell.Session

/-!
# Aliases that can be used

Two rules have to agree on the names of aliases. The command that defines one checks the
name against a list of characters, and the scanner decides which characters make up a word;
an alias is replaced only where a word is its name. Every character that ends a word is on
the list, so a name without quotes is a word (`isWord_of_isAliasName`). Quotes are not on
the list. A name may have them, and then it is a word only if it does not start with one and
each is closed, as a word of a line is (`tokenize_eq_word_iff`).

A name that is not a word can be defined, and nothing comes of it. Words are spelled as they
are, so no line and no value of an alias has a word with that name, and the expansion never
asks for it: every line is read as if the alias were not there (`expandAliases_erase`).

## Main results

* `Token.tokenize_eq_word_iff` — which texts are a word by themselves.
* `Token.expandAliases_word` — the name of an alias is expanded as its value is.
* `Token.expandAliases_erase` — an alias whose name is not a word is never replaced.
* `Builtin.definedIn_defineAliases` — what a call of `alias` defines.
* `alias_usable_iff` — which aliases can be used, and that the others do nothing.
-/

namespace MemShell

namespace Token

open Scan Text

/-! ## Words by themselves -/

section Words

variable {q : Quote} {span text cs : List Char} {w line : String} {ts : List Token}

/-- Between quotes in a word, a character belongs to the span. -/
theorem step_span {c : Char} (hMark : c ≠ q.mark) (hPlain : ¬ (q = .double ∧ c = '\\'))
    (read : List Char) :
    scanner.step (.quoted true q read) c = .ok ([], .quoted true q (c :: read)) := by
  simp [scanner, Scan.step, hMark, hPlain]

theorem step_span_escape (d : Char) (read : List Char) :
    scanner.step (.escape true read) d = .ok ([], .quoted true .double (d :: '\\' :: read)) := by
  simp [scanner, Scan.step]

theorem step_word_mark (q : Quote) (read : List Char) :
    scanner.step (.word read) q.mark = .ok ([], .quoted true q (q.mark :: read)) := by
  cases q <;> rfl

theorem step_quoted_mark (q : Quote) (read : List Char) :
    scanner.step (.quoted true q read) q.mark = .ok ([], .word (q.mark :: read)) := by
  cases q <;> rfl

/-- A span in single quotes has none. -/
private theorem feed_single_span (h : '\'' ∉ span) (read : List Char) :
    scanner.feed (.quoted true .single read) span =
      .ok ([], .quoted true .single (span.reverse ++ read)) := by
  induction span generalizing read with
  | nil => rfl
  | cons c span ih =>
      rw [List.mem_cons, not_or] at h
      have hMark : c ≠ Quote.single.mark := Ne.symm h.1
      rw [Transducer.feed_cons_of_silent (step_span hMark (by simp) read)]
      simpa using ih h.2 (c :: read)

private theorem feed_double_span (h : unescape? span = some text) (read : List Char) :
    scanner.feed (.quoted true .double read) span =
      .ok ([], .quoted true .double (span.reverse ++ read)) := by
  fun_induction unescape? span generalizing read text with
  | case1 => rfl
  | case2 c hEnds => cases h
  | case3 c hPlain =>
      rw [not_or] at hPlain
      exact Transducer.feed_cons_of_silent (step_span hPlain.1 (by simp [hPlain.2]) read) []
  | case4 d span => cases h
  | case5 d span hDouble ih =>
      obtain ⟨inner, hInner, -⟩ := Option.map_eq_some_iff.mp h
      have hBackslash : scanner.step (.quoted true .double read) '\\' =
          .ok ([], .escape true read) := rfl
      rw [Transducer.feed_cons_of_silent hBackslash,
        Transducer.feed_cons_of_silent (step_span_escape d read)]
      simpa using ih hInner (d :: '\\' :: read)
  | case6 c d span hDouble hBackslash ih =>
      obtain ⟨inner, hInner, -⟩ := Option.map_eq_some_iff.mp h
      rw [Transducer.feed_cons_of_silent (step_span hDouble (by simp [hBackslash]) read)]
      simpa using ih hInner (c :: read)

/-- Inside a word a span between quotes is read as it is spelled, up to its closing quote. -/
theorem feed_span (h : unquote? q span = some text) (read : List Char) :
    scanner.feed (.quoted true q read) span = .ok ([], .quoted true q (span.reverse ++ read)) := by
  cases q with
  | single =>
      have hNone : '\'' ∉ span ∧ span = text := by simpa [unquote?] using h
      exact feed_single_span hNone.1 read
  | double => exact feed_double_span h read

/-- A word goes on over any text of words. -/
theorem feed_wordText (h : WordText cs) :
    ∀ read, scanner.feed (.word read) cs = .ok ([], .word (cs.reverse ++ read)) := by
  induction h with
  | nil => exact fun read => rfl
  | @ordinary c cs hBlank hOperator hDouble hSingle _ ih =>
      intro read
      have hStep : scanner.step (.word read) c = .ok ([], .word (c :: read)) := by
        simp [scanner, Scan.step, hBlank, hOperator, quoteOf?, hDouble, hSingle]
      rw [Transducer.feed_cons_of_silent hStep]
      simpa using ih (c :: read)
  | @quoted q span text cs hSpan _ ih =>
      intro read
      have hClose : scanner.feed (.quoted true q (span.reverse ++ q.mark :: read)) (q.mark :: cs) =
          .ok ([], .word (cs.reverse ++ q.mark :: (span.reverse ++ q.mark :: read))) := by
        rw [Transducer.feed_cons_of_silent (step_quoted_mark q _), ih]
      have hInside := Transducer.feed_append_of_ok (feed_span hSpan (q.mark :: read)) hClose
      rw [List.cons_append, Transducer.feed_cons_of_silent (step_word_mark q read), hInside]
      simp

theorem tokenize_of_isWord (h : IsWord w.toList) : tokenize w = .ok [⟨.word, w⟩] := by
  obtain ⟨c, cs, hChars⟩ := List.exists_cons_of_ne_nil h.ne_nil
  obtain ⟨hDouble, hSingle, hOperator⟩ := h.first c (by rw [hChars]; rfl)
  have hText := h.text
  rw [hChars] at hText
  have hRest : isBlank c = false ∧ WordText cs := by
    cases hText with
    | ordinary hBlank _ _ _ hRest => exact ⟨hBlank, hRest⟩
    | @quoted q _ _ _ _ _ => cases q <;> contradiction
  have hOne : start c = ([], .word [c]) := by
    simp only [isOperatorChar, Bool.or_eq_false_iff, decide_eq_false_iff_not] at hOperator
    simp [start, hRest.1, hOperator, quoteOf?, hDouble, hSingle]
  have hStep : scanner.step .idle c = .ok ([], .word [c]) := congrArg Except.ok hOne
  have hFeed : scanner.feed .idle (c :: cs) = .ok ([], .word (cs.reverse ++ [c])) := by
    rw [Transducer.feed_cons_of_silent hStep, feed_wordText hRest.2]
  have hAll : w = String.ofList (c :: cs) := by rw [← hChars, String.ofList_toList]
  rw [tokenize, scan, hChars, Transducer.run_of_feed hFeed]
  simp [scanner, finish, ofWord, hAll, Except.map]

/-- The words of a line are words by themselves. -/
theorem isWord_of_mem (hTokens : tokenize line = .ok ts) {t : Token} (ht : t ∈ ts)
    (hKind : t.kind = .word) : IsWord t.value.toList := by
  have hIdle : Held .idle [] := ⟨[], [], rfl, by simp [AllBlank], rfl⟩
  obtain ⟨out, m, last, hFeed, hFinish, rfl⟩ := Transducer.run_eq_ok_iff.mp hTokens
  obtain ⟨given, held, -, hGiven, hHeld⟩ := held_feed hIdle hFeed
  exact (hGiven.append (layout_finish hHeld hFinish)).isWord t ht hKind

/-- **A text is a word by itself** if it is one as the spelling of a word has to be. -/
theorem tokenize_eq_word_iff : tokenize w = .ok [⟨.word, w⟩] ↔ IsWord w.toList :=
  ⟨fun h => isWord_of_mem h (List.mem_singleton_self _) rfl, tokenize_of_isWord⟩

end Words

/-! ## The name of an alias -/

section Names

variable {aliases : Table String String} {name value : String}

/-- Without its alias a name is one that is set aside. -/
theorem expandAliases_erase_eq_except (aliases : Table String String) (name : String)
    (ts : List Token) :
    expandAliases (aliases.erase name) ts = expandAliasesExcept [name] aliases ts := by
  have hErase : aliases.erase name = aliases.filterKeys (· ∉ [name]) := by
    apply Table.ext
    simp [Table.erase, Table.filterKeys]
  rw [hErase]
  rfl

/-- **A name is expanded as its value is**, with the name set aside. -/
theorem expandAliases_word (hGet : aliases.get? name = some value) :
    expandAliases aliases [⟨.word, name⟩] =
      tokenize value >>= expandAliasesExcept [name] aliases := by
  rw [expandAliases, expandLive_cons_of_command rfl hGet, expandLive_nil]
  cases tokenize value with
  | error e => rfl
  | ok us =>
      show (expandAliases (aliases.erase name) us >>= fun expanded => pure (expanded ++ [])) =
        expandAliasesExcept [name] aliases us
      simp only [List.append_nil, bind_pure, expandAliases_erase_eq_except]

private theorem erase_erase_comm (aliases : Table String String) (a b : String) :
    (aliases.erase a).erase b = (aliases.erase b).erase a := by
  apply Table.ext
  simp only [Table.erase, Table.filterKeys, List.filter_filter, Bool.and_comm]

/-- Where no word has a name, its alias makes no difference. -/
private theorem expandLive_erase (hName : ¬ IsWord name.toList) (live : Table String String)
    (p : Position) (ts : List Token) :
    (∀ t ∈ ts, t.kind = .word → t.value ≠ name) →
      expandLive (live.erase name) p ts = expandLive live p ts := by
  induction live, p, ts using expandInduction with
  | nil live p =>
      intro _
      rw [expandLive_nil, expandLive_nil]
  | keep live p t ts hKept ih =>
      intro hNone
      have hStill : p = .command → t.kind = .word → (live.erase name).get? t.value = none := by
        intro hPlace hWord
        rw [Table.get?_erase, hKept hPlace hWord, ite_self]
      rw [expandLive_cons_keep hStill, expandLive_cons_keep hKept,
        ih fun u hu => hNone u (List.mem_cons_of_mem _ hu)]
  | replace live t value ts hWord hGet ihValue ihRest =>
      intro hNone
      have hOther : t.value ≠ name := hNone t List.mem_cons_self hWord
      have hStill : (live.erase name).get? t.value = some value := by
        rw [Table.get?_erase, if_neg hOther, hGet]
      rw [expandLive_cons_of_command hWord hStill, expandLive_cons_of_command hWord hGet,
        erase_erase_comm, ihRest fun u hu => hNone u (List.mem_cons_of_mem _ hu)]
      cases hValue : tokenize value with
      | error e => rfl
      | ok us =>
          -- the words of the value are words by themselves, which the name is not
          have hInner : ∀ u ∈ us, u.kind = .word → u.value ≠ name := by
            rintro u hu hKind rfl
            exact hName (isWord_of_mem hValue hu hKind)
          simp only [bind, Except.bind, ihValue us hValue hInner]

/-- **An alias whose name is not a word** is never replaced. -/
theorem expandAliases_erase (hName : ¬ IsWord name.toList) {line : String} {ts : List Token}
    (hTokens : tokenize line = .ok ts) (aliases : Table String String) :
    expandAliases (aliases.erase name) ts = expandAliases aliases ts := by
  refine expandLive_erase hName aliases .command ts ?_
  rintro t ht hKind rfl
  exact hName (isWord_of_mem hTokens ht hKind)

end Names

end Token

/-! ## What `alias` defines -/

namespace Builtin

open Token (IsWord WordText)

variable {σ : Type} {name value : String}

/-- A text that can be the name of an alias has no character that cannot. -/
theorem isAliasName_iff :
    isAliasName name = true ↔
      (∃ c ∈ name.toList.head?, Text.isDigit c = false) ∧
        ∀ c ∈ name.toList, isBadAliasChar c = false := by
  unfold isAliasName
  cases name.toList <;> simp

/-- No character that ends a word can be in the name of an alias. -/
theorem plain_of_not_isBadAliasChar {c : Char} (h : isBadAliasChar c = false) :
    Text.isBlank c = false ∧ Token.Scan.isOperatorChar c = false := by
  simp only [isBadAliasChar, Bool.or_eq_false_iff] at h
  simp only [Token.Scan.isOperatorChar, Bool.or_eq_false_iff]
  tauto

/-- **A name without quotes is a word.** -/
theorem isWord_of_isAliasName (hName : isAliasName name = true)
    (hQuotes : ∀ c ∈ name.toList, c ≠ '"' ∧ c ≠ '\'') : IsWord name.toList := by
  obtain ⟨⟨first, hFirst, -⟩, hGood⟩ := isAliasName_iff.mp hName
  have hText : ∀ cs : List Char, (∀ c ∈ cs, c ∈ name.toList) → WordText cs := by
    intro cs hIn
    induction cs with
    | nil => exact .nil
    | cons c cs ih =>
        rw [List.forall_mem_cons] at hIn
        obtain ⟨hBlank, hOperator⟩ := plain_of_not_isBadAliasChar (hGood c hIn.1)
        obtain ⟨hDouble, hSingle⟩ := hQuotes c hIn.1
        exact .ordinary hBlank hOperator hDouble hSingle (ih hIn.2)
  refine ⟨fun hNil => ?_, fun c hc => ?_, hText _ fun c hc => hc⟩
  · rw [hNil] at hFirst
    cases hFirst
  · have hMem := List.mem_of_mem_head? hc
    exact ⟨(hQuotes c hMem).1, (hQuotes c hMem).2, (plain_of_not_isBadAliasChar (hGood c hMem)).2⟩

/-- Alone on a line, the name of an alias is a command unless it is a comment. -/
theorem hasCommand_iff_of_isAliasName (hName : isAliasName name = true) :
    hasCommand name = true ↔ ∀ c ∈ name.toList.head?, c ≠ '#' := by
  obtain ⟨⟨first, hFirst, -⟩, hGood⟩ := isAliasName_iff.mp hName
  have hTrim : Text.trim name.toList = name.toList :=
    Text.trim_of_not_blank fun c hc => (plain_of_not_isBadAliasChar (hGood c hc)).1
  unfold hasCommand
  rw [hTrim]
  cases hChars : name.toList with
  | nil =>
      rw [hChars] at hFirst
      cases hFirst
  | cons c cs => simp

/-- The definitions found in arguments: each is written in one of them, under a name that an
alias can have. -/
def DefinedIn (args : List String) (defined : Table String String) : Prop :=
  ∀ name value, defined.get? name = some value → isAliasName name = true ∧
    ∃ text, name ++ "=" ++ text ∈ args ∧ value = unquote text

/-- One more argument. -/
theorem DefinedIn.aliasArg {args : List String} {r : AliasReport} (h : DefinedIn args r.defined)
    (known : Table String String) (arg : String) :
    DefinedIn (args ++ [arg]) (Builtin.aliasArg known r arg).defined := by
  have hBefore : DefinedIn (args ++ [arg]) r.defined := by
    intro name value hGet
    obtain ⟨hName, text, hText, hValue⟩ := h name value hGet
    exact ⟨hName, text, List.mem_append_left _ hText, hValue⟩
  unfold Builtin.aliasArg
  cases hCut : Text.cut '=' arg with
  | none => cases known.get? arg <;> exact hBefore
  | some parts =>
      obtain ⟨key, text⟩ := parts
      have hMark : String.singleton '=' = "=" := by decide
      have hArg := Text.eq_of_cut_eq_some hCut
      rw [hMark] at hArg
      have hMem : key ++ "=" ++ text ∈ args ++ [arg] := by simp [hArg]
      by_cases hKey : isAliasName key = true
      · simp only [hKey, if_true]
        intro name value hGet
        rw [Table.get?_insert] at hGet
        by_cases hSame : key = name
        · rw [if_pos hSame] at hGet
          rw [← hSame, ← Option.some.inj hGet]
          exact ⟨hKey, text, hMem, rfl⟩
        · rw [if_neg hSame] at hGet
          exact hBefore name value hGet
      · simp only [hKey]
        exact hBefore

/-- **What a call of `alias` defines** is written in its arguments. -/
theorem definedIn_defineAliases (args : List String) (ctx : Context σ) :
    DefinedIn args (defineAliases args ctx).changes.aliases := by
  have hFound : ∀ (rest before : List String) (r : AliasReport), DefinedIn before r.defined →
      DefinedIn (before ++ rest)
        (rest.foldl (Builtin.aliasArg (ctx.aliases.getD ∅)) r).defined := by
    intro rest
    induction rest with
    | nil =>
        intro before r h
        rwa [List.append_nil]
    | cons arg rest ih =>
        intro before r h
        have hNext := ih (before ++ [arg]) _ (h.aliasArg (ctx.aliases.getD ∅) arg)
        rwa [List.append_assoc] at hNext
  have hNone : DefinedIn [] (∅ : Table String String) := by
    intro name value hGet
    cases hGet
  unfold defineAliases
  split
  · intro name value hGet
    cases hGet
  · exact hFound args [] {} hNone

end Builtin

/-! ## Using an alias -/

open Token

variable {σ : Type}

/--
**Which aliases can be used.** What a call of `alias` defines is written in its arguments,
a name and a value around an equals sign, the value without the quotes around it. The name
by itself is read as the word with that text exactly if it is a word as lines spell it, which
it is if there are no quotes in it. It is then expanded, once the definitions are made and
whatever was defined before, as the value is with the name set aside, and so to the tokens of
the value where none of them is an alias in turn; a line that is the name and nothing else is a
comment if it starts like one. If the name is not a word, the alias is there for nothing:
every line is read as without it.
-/
theorem alias_usable_iff {args : List String} {ctx : Context σ} {name value : String}
    (hDefined : (Builtin.defineAliases args ctx).changes.aliases.get? name = some value) :
    (∃ text, name ++ "=" ++ text ∈ args ∧ value = Builtin.unquote text) ∧
    (tokenize name = .ok [⟨.word, name⟩] ↔ IsWord name.toList) ∧
    ((∀ c ∈ name.toList, c ≠ '"' ∧ c ≠ '\'') → IsWord name.toList) ∧
    (Builtin.hasCommand name = true ↔ ∀ c ∈ name.toList.head?, c ≠ '#') ∧
    (IsWord name.toList → ∀ aliases : Table String String,
      let known := Session.changedAliases aliases (Builtin.defineAliases args ctx).changes
      (tokenize name >>= expandAliases known) =
          (tokenize value >>= expandAliasesExcept [name] known) ∧
        ∀ ts, tokenize value = .ok ts → Exhausted (known.erase name) .command ts →
          (tokenize name >>= expandAliases known) = .ok ts) ∧
    (¬ IsWord name.toList → ∀ (aliases env : Table String String) (line : String),
      Session.parseWith (aliases.erase name) env line = Session.parseWith aliases env line) := by
  obtain ⟨hName, hWritten⟩ := Builtin.definedIn_defineAliases args ctx name value hDefined
  refine ⟨hWritten, tokenize_eq_word_iff, Builtin.isWord_of_isAliasName hName,
    Builtin.hasCommand_iff_of_isAliasName hName, fun hWord aliases => ?_,
    fun hWord aliases env line => ?_⟩
  · intro known
    have hKnown : known.get? name = some value := by
      show (Table.insertMany _ _).get? name = _
      rw [Table.get?_insertMany_entries, hDefined]
      rfl
    have hSame : (tokenize name >>= expandAliases known) =
        (tokenize value >>= expandAliasesExcept [name] known) := by
      rw [tokenize_of_isWord hWord]
      exact expandAliases_word hKnown
    refine ⟨hSame, fun ts hValue hExhausted => ?_⟩
    calc (tokenize name >>= expandAliases known)
        = expandAliasesExcept [name] known ts := by rw [hSame, hValue]; rfl
      _ = expandAliases (known.erase name) ts := (expandAliases_erase_eq_except known name ts).symm
      _ = .ok ts := (expands_of_exhausted ts hExhausted).expandLive_eq
  · unfold Session.parseWith
    cases hTokens : tokenize line with
    | error e => rfl
    | ok ts =>
        simp only [Except.mapError, bind, Except.bind, expandAliases_erase hWord hTokens]

/-- One name without a quote, and one with a quote that is never closed. -/
def quotedNames : List String :=
  ["ll='ls -la'", "a'b=echo hi"]

theorem alias_usable_iff_quotedNames :
    let changes := (Builtin.defineAliases quotedNames ({} : Context Unit)).changes
    (changes.aliases.get? "ll" = some "ls -la" ∧
      (tokenize "ll" >>= expandAliases (Session.changedAliases ∅ changes)) =
        .ok [⟨.word, "ls"⟩, ⟨.word, "-la"⟩]) ∧
    changes.aliases.get? "a'b" = some "echo hi" ∧ tokenize "a'b" = .error .openQuote ∧
      ∀ (aliases env : Table String String) (line : String),
        Session.parseWith (aliases.erase "a'b") env line = Session.parseWith aliases env line := by
  intro changes
  have hPlain : changes.aliases.get? "ll" = some "ls -la" := by decide +kernel
  have hQuoted : changes.aliases.get? "a'b" = some "echo hi" := by decide +kernel
  obtain ⟨-, -, hWord, -, hUsed, -⟩ := alias_usable_iff hPlain
  obtain ⟨-, hSingle, -, -, -, hUnused⟩ := alias_usable_iff hQuoted
  have hOpen : tokenize "a'b" = .error .openQuote := rfl
  have hNotWord : ¬ IsWord "a'b".toList := by
    intro hIs
    have hTokens := hSingle.mpr hIs
    rw [hOpen] at hTokens
    cases hTokens
  have hPlainWord : IsWord "ll".toList := hWord (by simp)
  have hList := (hUsed hPlainWord ∅).2 [⟨.word, "ls"⟩, ⟨.word, "-la"⟩] rfl (by decide +kernel)
  exact ⟨⟨hPlain, hList⟩, hQuoted, hOpen, hUnused hNotWord⟩

end MemShell
