import MemShell.Proofs.AliasNames
import MemShell.Proofs.CanonicalLocations
import MemShell.Proofs.QuotedAssignments

/-!
# The listing of aliases, read back

`alias` prints each alias as a line that defines it, with single quotes around the value. The
printer does not look at the value, and a line is read by rules of its own. In it the definition
is one word only if the quotes in the value happen to fit between those around it, and a
reference in a word is filled in, single quotes or not. A listing can therefore be read back if
each definition is a word that stands for itself (`Listable`), and these are the definitions that
are read as what they show (`readTokens_shown_iff`).

What is read back is then the table: the lines define the aliases one after the other in the
order of their names, each name once, and `alias` takes every name, since a session has no
others.

## Main results

* `commandLines_asLines` — the lines of a printed text.
* `evaluate_listing`, `evaluate_shown` — the listing printed, and one line of it evaluated.
* `readTokens_shown_iff` — which definitions are read as what they show.
* `listing_readBack` — a listing read back.
-/

namespace MemShell

open Builtin Session
open Token (IsWord WordText tokenize unquote?)
open Token.Scan (Quote)

variable {σ : Type}

/-! ## The lines of a printed text -/

namespace Text

/-- The first item is the first line. -/
theorem asLines_cons {item : String} (hItem : item ≠ "") {items : List String}
    (hItems : ∀ i ∈ items, i ≠ "") : asLines (item :: items) = item ++ "\n" ++ asLines items := by
  have hText : ∀ first rest, first ≠ "" → ("\n".intercalate (first :: rest)).isEmpty = false := by
    intro first rest hFirst
    cases rest with
    | nil => simpa [String.intercalate_singleton] using hFirst
    | cons next rest =>
        rw [String.intercalate_cons_cons]
        simp [hFirst]
  cases items with
  | nil => simp [asLines, String.intercalate_singleton, hItem]
  | cons next rest =>
      have hNext : next ≠ "" := hItems next List.mem_cons_self
      simp only [asLines, hText _ _ hItem, hText _ _ hNext, Bool.false_eq_true, if_false]
      rw [String.intercalate_cons_cons, String.append_assoc, String.append_assoc]

/-- What stands before the first line feed is the first line. -/
theorem split_newline {first : String} (h : '\n' ∉ first.toList) (rest : String) :
    split '\n' (first ++ "\n" ++ rest) = first :: split '\n' rest := by
  have hText : (first ++ "\n" ++ rest).toList = first.toList ++ '\n' :: rest.toList := by simp
  rw [split, hText, splitAt_append_mark h]
  simp [split]

end Text

/-- **The lines of a printed text** are the texts that were printed, if each is a line with a
command on it. -/
theorem commandLines_asLines {items : List String} (hLine : ∀ i ∈ items, '\n' ∉ i.toList)
    (hHas : ∀ i ∈ items, hasCommand i = true) : commandLines (Text.asLines items) = items := by
  have hEmpty : hasCommand "" = false := by decide
  have hSome : ∀ i ∈ items, i ≠ "" := by
    rintro i hi rfl
    rw [hHas _ hi] at hEmpty
    cases hEmpty
  induction items with
  | nil => decide
  | cons item items ih =>
      rw [List.forall_mem_cons] at hLine hHas hSome
      rw [Text.asLines_cons hSome.1 hSome.2, commandLines, Text.split_newline hLine.1,
        List.filter_cons_of_pos hHas.1]
      exact congrArg (item :: ·) (ih hLine.2 hHas.2 hSome.2)

/-! ## The definition of an alias -/

/-- The definition of an alias as it is listed. -/
def shownDefinition (name value : String) : String :=
  name ++ "=" ++ quoted .single value

theorem showAlias_eq (name value : String) :
    showAlias name value = "alias" ++ " " ++ shownDefinition name value := by
  apply String.toList_inj.mp
  simp [showAlias, shownDefinition, toList_quoted, Quote.mark]

/-- A definition that is listed on one line, as a word that stands for itself whatever the last
status was. -/
structure Listable (env : Table String String) (name value : String) : Prop where
  oneLine : '\n' ∉ value.toList
  isWord : IsWord (shownDefinition name value).toList
  stands : ∀ status : Int,
    expandText (env.insert "?" (toString status)) (shownDefinition name value) =
      .ok (shownDefinition name value)

/-- Texts without quotes and references are read as they are listed. -/
theorem Listable.of_plain {name value : String} (hName : isAliasName name = true)
    (hPlain : ∀ c ∈ name.toList, c ≠ '"' ∧ c ≠ '\'' ∧ c ≠ '$')
    (hValue : ∀ c ∈ value.toList, c ≠ '\'' ∧ c ≠ '$' ∧ c ≠ '\n') (env : Table String String) :
    Listable env name value where
  oneLine := fun hMem => (hValue _ hMem).2.2 rfl
  isWord := by
    have hWord : IsWord name.toList :=
      isWord_of_isAliasName hName fun c hc => ⟨(hPlain c hc).1, (hPlain c hc).2.1⟩
    have hSpan : unquote? .single value.toList = some value.toList :=
      if_neg fun hMem => (hValue _ hMem).1 rfl
    exact isWord_quotedValue hWord hSpan
  stands := by
    have hKey : '$' ∉ name.toList := fun hMem => (hPlain _ hMem).2.2 rfl
    have hText : '$' ∉ (quoted .single value).toList :=
      not_mem_quoted (fun hMem => (hValue _ hMem).2.1 rfl) (by decide)
    exact fun status => Written.expandText_of_no_dollar (by simp [shownDefinition, hKey, hText]) _

/-! ## Lines of `alias` -/

/-- Under `alias` the shell has the command that defines and lists aliases, and no command
defines an alias under another name than that command takes. -/
structure Aliasing (shell : Shell σ) : Prop where
  command : shell.registry.builtins.get? "alias" =
    some (.pure fun call => defineAliases call.args call.context)
  holds : shell.registry.Holds (Command.Asks Changes.NamesAliases)

section Lines

variable {shell : Shell σ} {s t : Session σ} {name value : String} (hShell : Aliasing shell)
include hShell

/-- **The listing is printed**, and nothing is changed but the status. -/
theorem evaluate_listing (hAlias : s.aliases.get? "alias" = none) (hFree : s.IsFree) :
    ∃ t, evaluate shell "alias" s =
        .ok ⟨Text.asLines (s.aliases.sorted.map fun (k, v) => showAlias k v), "", 0⟩ t ∧
      t = { s with lastStatus := 0, machine := t.machine } := by
  have hTokens : tokenize "alias" = .ok [⟨.word, "alias"⟩] := rfl
  have hParse : s.parse "alias" = .ok [.simple ⟨"alias", [], []⟩] :=
    parse_command hTokens hAlias (by decide) (by simp) rfl
  obtain ⟨t, hRun, hAfter⟩ := evaluate_command (by decide) hParse hShell.command hFree rfl
    Changes.onNames_empty
  exact ⟨t, hRun, hAfter.eq_of_renewed⟩

/-- A line of `alias` and the definition of one alias. -/
theorem evaluate_definition {rest text : String} {u v : Token}
    (hAlias : s.aliases.get? "alias" = none) (hFree : s.IsFree) (hName : isAliasName name = true)
    (hToken : tokenize rest = .ok [u]) (hText : u.kind.isText = true)
    (hFilled : u.expandVariables s.expansionEnv = .ok v) (hValue : v.value = name ++ "=" ++ text) :
    ∃ t, evaluate shell ("alias" ++ " " ++ rest) s = .ok ⟨"", "", 0⟩ t ∧
      t = { s with aliases := s.aliases.insert name (unquote text), lastStatus := 0,
                   machine := t.machine } ∧ t.IsFree := by
  have hOutcome : defineAliases [v.value] (s.context shell) =
      .changing { aliases := (∅ : Table String String).insert name (unquote text) } := by
    rw [hValue, defineAliases_definition (not_mem_of_isAliasName hName), if_pos hName]
  obtain ⟨t, hRun, hAfter⟩ := evaluate_argument (by decide) rfl hAlias (by decide) hToken hText
    hFilled hShell.command hFree hOutcome ⟨rfl, rfl, rfl⟩
  exact ⟨t, hRun, hAfter.eq_of_renewed, hAfter.isFree hFree⟩

/-- **A line of the listing** defines the alias that it shows. -/
theorem evaluate_shown (hAlias : s.aliases.get? "alias" = none) (hFree : s.IsFree)
    (hName : isAliasName name = true) (hShown : Listable s.env name value) :
    ∃ t, evaluate shell (showAlias name value) s = .ok ⟨"", "", 0⟩ t ∧
      t = { s with aliases := s.aliases.insert name value, lastStatus := 0,
                   machine := t.machine } ∧ t.IsFree := by
  have hFilled : (⟨.word, shownDefinition name value⟩ : Token).expandVariables s.expansionEnv =
      .ok ⟨.word, shownDefinition name value⟩ :=
    Token.expandVariables_word_iff.mpr (hShown.stands s.lastStatus)
  have hLine := evaluate_definition hShell hAlias hFree hName
    (Token.tokenize_of_isWord hShown.isWord) rfl hFilled rfl
  rwa [unquote_quoted, ← showAlias_eq] at hLine

end Lines

/-! ## What is read of a line of the listing -/

section Reading

variable {name value : String}

/-- A text that neither starts nor ends with a blank and has one word on it is that word. -/
theorem value_eq_of_tokenize {text : String} {t : Token} (hToken : tokenize text = .ok [t])
    (hWord : t.kind = .word) (hFirst : ∀ c ∈ text.toList.head?, Text.isBlank c = false)
    (hLast : ∀ c ∈ text.toList.getLast?, Text.isBlank c = false) : t.value = text := by
  have hLayout := Token.layout_of_scan hToken
  generalize hChars : text.toList = cs at hLayout hFirst hLast
  cases hLayout with
  | @cons _ _ blanks spelling rest hBlanks hSpelling hRest =>
      cases hRest with
      | nil hEnd =>
          obtain rfl : rest = [] := by
            cases hRev : rest.getLast? with
            | none => exact List.getLast?_eq_none_iff.mp hRev
            | some c =>
                have hc : Text.isBlank c = true := hEnd c (List.mem_of_getLast? hRev)
                rw [hLast c (by rw [List.getLast?_append, hRev]; rfl)] at hc
                cases hc
          obtain rfl : blanks = [] := by
            cases blanks with
            | nil => rfl
            | cons c blanks =>
                have hc : Text.isBlank c = true := hBlanks c List.mem_cons_self
                rw [hFirst c rfl] at hc
                cases hc
          have hSame : spelling = t.value.toList := by
            cases hSpelling with
            | operator hSymbol => rfl
            | word _ => rfl
            | single _ => cases hWord
            | double _ => cases hWord
          apply String.toList_inj.mp
          rw [hChars, hSame, List.nil_append, List.append_nil]

/-- A definition neither starts nor ends with a blank. -/
theorem not_isBlank_definition (hName : isAliasName name = true) :
    (∀ c ∈ (shownDefinition name value).toList.head?, Text.isBlank c = false) ∧
      ∀ c ∈ (shownDefinition name value).toList.getLast?, Text.isBlank c = false := by
  obtain ⟨⟨first, hFirst, -⟩, hGood⟩ := isAliasName_iff.mp hName
  constructor
  · intro c hc
    have hHead : (shownDefinition name value).toList.head? = some first := by
      rw [shownDefinition, String.toList_append, String.toList_append, List.append_assoc,
        List.head?_append, hFirst]
      rfl
    obtain rfl := Option.some.inj (hHead.symm.trans hc)
    exact (plain_of_not_isBadAliasChar (hGood _ (List.mem_of_mem_head? hFirst))).1
  · intro c hc
    have hMark : (shownDefinition name value).toList.getLast? = some '\'' := by
      rw [shownDefinition, String.toList_append, toList_quoted, List.getLast?_append,
        List.getLast?_concat]
      rfl
    obtain rfl := Option.some.inj (hMark.symm.trans hc)
    rfl

/-- Without aliases, one argument of `alias` is read as its token is filled in. -/
theorem readTokens_alias_iff {t : Session σ} (hEmpty : t.aliases = ∅) {rest : String} {u : Token} :
    t.readTokens ("alias" ++ " " ++ rest) = .ok [⟨.word, "alias"⟩, u] ↔
      ∃ v, tokenize rest = .ok [v] ∧ v.expandVariables t.expansionEnv = .ok u := by
  have hCommand : tokenize "alias" = .ok [⟨.word, "alias"⟩] := rfl
  have hKept : (⟨.word, "alias"⟩ : Token).expandVariables t.expansionEnv = .ok ⟨.word, "alias"⟩ :=
    Written.expandVariables_of_inert (fun _ => by decide) _
  have hNone : ∀ ts, Token.expandAliases (∅ : Table String String) ts = .ok ts :=
    Token.expandLive_of_isEmpty rfl .command
  rw [readTokens_eq_ok_iff, hEmpty, Token.tokenize_blank hCommand]
  constructor
  · rintro ⟨ts, expanded, hTokens, hExpanded, hFilled⟩
    obtain rfl : ts = expanded := Except.ok.inj ((hNone ts).symm.trans hExpanded)
    cases hRest : tokenize rest with
    | error e =>
        rw [hRest] at hTokens
        cases hTokens
    | ok us =>
        rw [hRest] at hTokens
        obtain rfl : ⟨.word, "alias"⟩ :: us = ts := Except.ok.inj hTokens
        obtain ⟨u', out, -, hOut, hSame⟩ := Token.expandVariablesList_cons_eq_ok_iff.mp hFilled
        obtain ⟨-, rfl⟩ := List.cons.inj hSame
        obtain ⟨v, rfl, hValue⟩ := Token.expandVariablesList_eq_singleton_iff.mp hOut
        exact ⟨v, rfl, hValue⟩
  · rintro ⟨v, hRest, hValue⟩
    refine ⟨[⟨.word, "alias"⟩, v], _, by rw [hRest]; rfl, hNone _, ?_⟩
    exact Token.expandVariablesList_cons_eq_ok_iff.mpr
      ⟨_, [u], hKept, Token.expandVariablesList_eq_singleton_iff.mpr ⟨v, rfl, hValue⟩, rfl⟩

/-- **A definition is read as what it shows** if it is a word and stands for itself, and in no
other case. -/
theorem readTokens_shown_iff {t : Session σ} (hEmpty : t.aliases = ∅)
    (hName : isAliasName name = true) :
    t.readTokens (showAlias name value) =
        .ok [⟨.word, "alias"⟩, ⟨.word, shownDefinition name value⟩] ↔
      IsWord (shownDefinition name value).toList ∧
        expandText t.expansionEnv (shownDefinition name value) =
          .ok (shownDefinition name value) := by
  rw [showAlias_eq, readTokens_alias_iff hEmpty]
  constructor
  · rintro ⟨v, hToken, hFilled⟩
    have hKind : v.kind = .word := (Token.kind_of_expandVariables hFilled).symm
    obtain ⟨hFirst, hLast⟩ := not_isBlank_definition hName
    have hValue : v.value = shownDefinition name value :=
      value_eq_of_tokenize hToken hKind hFirst hLast
    obtain rfl : v = ⟨.word, shownDefinition name value⟩ := by rw [← hKind, ← hValue]
    exact ⟨Token.tokenize_eq_word_iff.mp hToken, Token.expandVariables_word_iff.mp hFilled⟩
  · rintro ⟨hWord, hStands⟩
    exact ⟨_, Token.tokenize_of_isWord hWord, Token.expandVariables_word_iff.mpr hStands⟩

end Reading

/-! ## Tables and the order of their entries -/

namespace Table

/-- A table is what its entries are, entered in the order of their keys. -/
theorem get?_insertMany_sorted {α : Type} (t : Table String α) (key : String) :
    ((∅ : Table String α).insertMany t.sorted).get? key = t.get? key := by
  have hPerm : t.sorted.Perm t.entries := List.mergeSort_perm _ _
  have hNodup : (t.sorted.map Prod.fst).Nodup := (hPerm.map Prod.fst).nodup_iff.mpr t.nodup
  have hEntered := get?_insertMany_entries ∅ ⟨t.sorted, hNodup⟩ key
  have hNone : (∅ : Table String α).get? key = none := get?_empty key
  rw [hNone, Option.or_none] at hEntered
  exact hEntered.trans (get?_congr_of_perm hPerm key)

end Table

/-! ## A listing read back -/

/-- The lines, evaluated one after the other from the first session, succeed and print nothing,
and lead to the second. -/
inductive Succeeds (shell : Shell σ) : Session σ → List String → Session σ → Prop
  | nil (s : Session σ) : Succeeds shell s [] s
  | cons {s s₁ t : Session σ} {line : String} {lines : List String}
      (hLine : evaluate shell line s = .ok ⟨"", "", 0⟩ s₁) (hLines : Succeeds shell s₁ lines t) :
      Succeeds shell s (line :: lines) t

/-- Definitions that are listed one after the other are entered one after the other. -/
theorem succeeds_shown {shell : Shell σ} (hShell : Aliasing shell) (es : List (String × String)) :
    ∀ {s : Session σ}, s.aliases.get? "alias" = none → s.IsFree →
      (∀ e ∈ es, e.1 ≠ "alias" ∧ isAliasName e.1 = true ∧ Listable s.env e.1 e.2) →
      ∃ t, Succeeds shell s (es.map fun (k, v) => showAlias k v) t ∧
        t.aliases = s.aliases.insertMany es := by
  induction es with
  | nil => exact fun _ _ _ => ⟨_, .nil _, rfl⟩
  | cons e es ih =>
      intro s hAlias hFree hShown
      rw [List.forall_mem_cons] at hShown
      obtain ⟨⟨hOther, hName, hListed⟩, hRest⟩ := hShown
      obtain ⟨s₁, hLine, hAfter, hFree₁⟩ := evaluate_shown hShell hAlias hFree hName hListed
      have hAliases : s₁.aliases = s.aliases.insert e.1 e.2 := by rw [hAfter]
      have hEnv : s₁.env = s.env := by rw [hAfter]
      have hAlias₁ : s₁.aliases.get? "alias" = none := by
        rw [hAliases, Table.get?_insert, if_neg hOther, hAlias]
      obtain ⟨t, hLines, hEnd⟩ := ih hAlias₁ hFree₁ (hEnv ▸ hRest)
      exact ⟨t, .cons hLine hLines, by rw [hEnd, hAliases]; rfl⟩

/-- The session was reached by evaluating lines, from one that had no aliases. -/
def FromNoAliases (shell : Shell σ) (s : Session σ) : Prop :=
  ∃ start lines, start.aliases = ∅ ∧ afterLines shell start lines = s

theorem FromNoAliases.named {shell : Shell σ} {s : Session σ} (h : FromNoAliases shell s)
    (hShell : Aliasing shell) : s.Named := by
  obtain ⟨start, lines, hStart, rfl⟩ := h
  exact named_afterLines hShell.holds lines (named_of_isEmpty hStart)

/-- The listing is printed a definition a line. -/
theorem commandLines_listing {env : Table String String} {es : List (String × String)}
    (h : ∀ e ∈ es, isAliasName e.1 = true ∧ Listable env e.1 e.2) :
    commandLines (Text.asLines (es.map fun (k, v) => showAlias k v)) =
      es.map fun (k, v) => showAlias k v := by
  apply commandLines_asLines
  · rw [List.forall_mem_map]
    rintro ⟨name, value⟩ he hNewline
    obtain ⟨hName, hListed⟩ := h _ he
    have hKey : '\n' ∉ name.toList := fun hMem =>
      absurd ((isAliasName_iff.mp hName).2 _ hMem) (by decide)
    have hValue : '\n' ∉ value.toList := hListed.oneLine
    change '\n' ∈ (showAlias name value).toList at hNewline
    rw [showAlias_eq] at hNewline
    simp [shownDefinition, toList_quoted, Quote.mark, hKey, hValue] at hNewline
  · rw [List.forall_mem_map]
    rintro ⟨name, value⟩ -
    show hasCommand (showAlias name value) = true
    rw [showAlias_eq]
    exact hasCommand_append (hasCommand_append (by decide) " ") _

/--
**A listing read back.** Let a session be reached by evaluating any lines from one without
aliases, so that `alias` is not an alias, and let another session have the same variables and no
aliases. Each definition of the listing is read there as what it shows exactly if it is one word
of a line and stands for itself. If all of them do whatever the last status is, and no value has
a line feed, as it is with plain names and values, the lines that `alias` prints can be evaluated
one after the other: each succeeds, and the second session has the aliases of the first.
-/
theorem listing_readBack (shell : Shell σ) (hShell : Aliasing shell) (s t : Session σ)
    (hReached : FromNoAliases shell s) (hAlias : s.aliases.get? "alias" = none)
    (hFree : s.IsFree) (hEmpty : t.aliases = ∅) (hEnv : t.env = s.env) (hFreeToo : t.IsFree) :
    (∀ name value, s.aliases.get? name = some value →
      (t.readTokens (showAlias name value) =
          .ok [⟨.word, "alias"⟩, ⟨.word, shownDefinition name value⟩] ↔
        IsWord (shownDefinition name value).toList ∧
          expandText t.expansionEnv (shownDefinition name value) =
            .ok (shownDefinition name value))) ∧
    (∀ name value, s.aliases.get? name = some value →
      (∀ c ∈ name.toList, c ≠ '"' ∧ c ≠ '\'' ∧ c ≠ '$') →
      (∀ c ∈ value.toList, c ≠ '\'' ∧ c ≠ '$' ∧ c ≠ '\n') → Listable s.env name value) ∧
    ((∀ name value, s.aliases.get? name = some value → Listable s.env name value) →
      ∃ out s' t', evaluate shell "alias" s = .ok ⟨out, "", 0⟩ s' ∧
        Succeeds shell t (commandLines out) t' ∧
        ∀ name, t'.aliases.get? name = s.aliases.get? name) := by
  have hNamed : s.Named := hReached.named hShell
  refine ⟨fun name value hGet => readTokens_shown_iff hEmpty (hNamed name value hGet),
    fun name value hGet hPlain hText => .of_plain (hNamed name value hGet) hPlain hText _, ?_⟩
  intro hListed
  have hEntry : ∀ e ∈ s.aliases.sorted, s.aliases.get? e.1 = some e.2 := fun e he =>
    Table.get?_eq_some_iff.mpr ((List.mergeSort_perm _ _).mem_iff.mp he)
  have hShown : ∀ e ∈ s.aliases.sorted, isAliasName e.1 = true ∧ Listable t.env e.1 e.2 :=
    fun e he => ⟨hNamed _ _ (hEntry e he), hEnv ▸ hListed _ _ (hEntry e he)⟩
  have hOther : ∀ e ∈ s.aliases.sorted, e.1 ≠ "alias" := by
    intro e he hSame
    rw [← hSame, hEntry e he] at hAlias
    cases hAlias
  have hNoAlias : t.aliases.get? "alias" = none := by
    rw [hEmpty]
    rfl
  obtain ⟨s', hPrint, -⟩ := evaluate_listing hShell hAlias hFree
  obtain ⟨t', hLines, hEnd⟩ := succeeds_shown hShell s.aliases.sorted hNoAlias hFreeToo
    fun e he => ⟨hOther e he, hShown e he⟩
  rw [← commandLines_listing hShown] at hLines
  refine ⟨_, s', t', hPrint, hLines, fun name => ?_⟩
  rw [hEnd, hEmpty]
  exact Table.get?_insertMany_sorted s.aliases name

/-- Every command of the core is there, and no other. -/
theorem aliasing_cli : Aliasing Cli.shell :=
  ⟨rfl, holds_namesAliases⟩

/-- A session without aliases and with the variables that a session starts with. -/
def plainSession : Session FileTree :=
  Session.start ∅ ∅ .empty

/-- A value with single quotes that fit. -/
theorem listing_readBack_plainSession :
    ∃ s : Session FileTree, FromNoAliases Cli.shell s ∧
      s.aliases = (∅ : Table String String).insert "e" "echo 'a'" ∧
      s.aliases.get? "alias" = none ∧ s.IsFree ∧ plainSession.aliases = ∅ ∧
      plainSession.env = s.env ∧ plainSession.IsFree ∧
      plainSession.readTokens "alias e='echo 'a''" =
        .ok [⟨.word, "alias"⟩, ⟨.word, "e='echo 'a''"⟩] ∧
      ∃ out s' t', evaluate Cli.shell "alias" s = .ok ⟨out, "", 0⟩ s' ∧
        Succeeds Cli.shell plainSession (commandLines out) t' ∧
        ∀ name, t'.aliases.get? name = s.aliases.get? name := by
  have hFree : plainSession.IsFree := isFree_of_depth rfl
  have hText : shownDefinition "e" "echo 'a'" = "e='echo 'a''" := by decide
  have hToken : tokenize "e=\"echo 'a'\"" = .ok [⟨.word, "e=\"echo 'a'\""⟩] := by decide +kernel
  obtain ⟨s, hLine, hAfter, hFree'⟩ : ∃ s,
      evaluate Cli.shell ("alias" ++ " " ++ "e=\"echo 'a'\"") plainSession =
        .ok ⟨"", "", 0⟩ s ∧
      s = { plainSession with
            aliases := plainSession.aliases.insert "e" (unquote "\"echo 'a'\""), lastStatus := 0,
            machine := s.machine } ∧ s.IsFree :=
    evaluate_definition aliasing_cli rfl hFree (by decide) hToken rfl
      (Token.expandVariables_word_iff.mpr (Written.expandText_of_no_dollar (by decide) _)) rfl
  have hValue : unquote "\"echo 'a'\"" = "echo 'a'" := by decide
  have hAliases : s.aliases = (∅ : Table String String).insert "e" "echo 'a'" := by
    rw [hAfter, hValue]
    rfl
  have hEnv : plainSession.env = s.env := by rw [hAfter]
  have hReached : FromNoAliases Cli.shell s := by
    refine ⟨plainSession, ["alias" ++ " " ++ "e=\"echo 'a'\""], rfl, ?_⟩
    rw [afterLines, List.foldl_cons, List.foldl_nil, endState, hLine]
  have hAlias : s.aliases.get? "alias" = none := by
    rw [hAliases]
    decide
  have hGet : s.aliases.get? "e" = some "echo 'a'" := by
    rw [hAliases]
    decide
  have hWord : IsWord (shownDefinition "e" "echo 'a'").toList :=
    Token.tokenize_eq_word_iff.mp (by decide +kernel)
  have hStands : ∀ env, expandText env (shownDefinition "e" "echo 'a'") =
      .ok (shownDefinition "e" "echo 'a'") :=
    Written.expandText_of_no_dollar (by decide)
  have hListed : ∀ name value, s.aliases.get? name = some value → Listable s.env name value := by
    intro name value hSome
    rw [hAliases, Table.get?_insert] at hSome
    split at hSome
    case isTrue hSame =>
      obtain rfl := hSame
      obtain rfl := Option.some.inj hSome
      exact ⟨by decide, hWord, fun _ => hStands _⟩
    case isFalse => cases hSome
  obtain ⟨hRead, -, hBack⟩ := listing_readBack Cli.shell aliasing_cli s plainSession hReached hAlias
    hFree' rfl hEnv hFree
  have hTokens := (hRead "e" "echo 'a'" hGet).mpr ⟨hWord, hStands _⟩
  rw [showAlias_eq, hText] at hTokens
  exact ⟨s, hReached, hAliases, hAlias, hFree', rfl, hEnv, hFree, hTokens, hBack hListed⟩

/-- A listed definition that refers to a variable is read back as another one. -/
theorem not_listing_readBack :
    ∃ s s' t', Succeeds Cli.shell plainSession ["alias 'x=$HOME'"] s ∧
      plainSession.aliases = ∅ ∧ plainSession.env = s.env ∧ s.aliases.get? "alias" = none ∧
      evaluate Cli.shell "alias" s = .ok ⟨"alias x='$HOME'\n", "", 0⟩ s' ∧
      Succeeds Cli.shell plainSession ["alias x='$HOME'"] t' ∧
      s.aliases.get? "x" = some "$HOME" ∧ t'.aliases.get? "x" = some "/home/tronos" := by
  have hFree : plainSession.IsFree := isFree_of_depth rfl
  have hQuoted : tokenize "'x=$HOME'" = .ok [⟨.singleQuoted, "x=$HOME"⟩] := by decide +kernel
  have hWord : tokenize "x='$HOME'" = .ok [⟨.word, "x='$HOME'"⟩] := by decide +kernel
  obtain ⟨s, hDefine, hAfter, hFree'⟩ : ∃ s,
      evaluate Cli.shell ("alias" ++ " " ++ "'x=$HOME'") plainSession = .ok ⟨"", "", 0⟩ s ∧
      s = { plainSession with
            aliases := plainSession.aliases.insert "x" (unquote "$HOME"), lastStatus := 0,
            machine := s.machine } ∧ s.IsFree :=
    evaluate_definition aliasing_cli rfl hFree (by decide) hQuoted rfl rfl rfl
  obtain ⟨t', hAgain, hThen, -⟩ : ∃ t,
      evaluate Cli.shell ("alias" ++ " " ++ "x='$HOME'") plainSession = .ok ⟨"", "", 0⟩ t ∧
      t = { plainSession with
            aliases := plainSession.aliases.insert "x" (unquote "'/home/tronos'"), lastStatus := 0,
            machine := t.machine } ∧ t.IsFree :=
    evaluate_definition aliasing_cli rfl hFree (by decide) hWord rfl
      (Token.expandVariables_word_iff.mpr (by decide +kernel)) rfl
  have hKept : unquote "$HOME" = "$HOME" := by decide
  have hFilled : unquote "'/home/tronos'" = "/home/tronos" := by decide
  have hAliases : s.aliases = (∅ : Table String String).insert "x" "$HOME" := by
    rw [hAfter, hKept]
    rfl
  have hAlias : s.aliases.get? "alias" = none := by
    rw [hAliases]
    decide
  obtain ⟨s', hPrint, -⟩ := evaluate_listing aliasing_cli hAlias hFree'
  have hOut : Text.asLines (s.aliases.sorted.map fun (k, v) => showAlias k v) =
      "alias x='$HOME'\n" := by
    rw [hAliases]
    decide +kernel
  refine ⟨s, s', t', .cons hDefine (.nil s), rfl, by rw [hAfter], hAlias, hOut ▸ hPrint,
    .cons hAgain (.nil t'), ?_, ?_⟩
  · rw [hAliases]
    decide
  · rw [hThen, hFilled]
    rfl

end MemShell
