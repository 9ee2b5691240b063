import MemShell.Builtin.Naming
import MemShell.Cli
import MemShell.Proofs.SingleCommands
import MemShell.Proofs.UsableAliases

/-!
# Aliases defined and removed

`alias` and `unalias` ask for changes, and the session makes them. A definition enters one alias
and leaves the others alone; the alias has the text behind the first equals sign, without the
pair of quotes around it if there is one (`unquote_quoted`, `unquote_of_not_quoted`). What
`alias` takes for a name `unalias` takes for one too, with one exception. An argument `-a` is an
option to `unalias` and is looked at before any name is, while `alias` has no options: a
definition of `-a` is entered under that name. The alias of that name is removed with all others
or not at all.

## Main results

* `unquote_quoted`, `unquote_of_not_quoted` — the text of a definition.
* `defineAliases_definition` — what a definition asks for.
* `removeAliases_name`, `removeAliases_option` — what a removal asks for.
* `unalias_removes_defined` — an alias defined and removed.
-/

namespace MemShell

namespace Builtin

open Token.Scan (Quote)

variable {σ : Type} {name value : String}

/-! ## The text of a definition -/

/-- A text between two quotes of one kind. -/
def quoted (q : Quote) (text : String) : String :=
  String.singleton q.mark ++ text ++ String.singleton q.mark

theorem toList_quoted (q : Quote) (text : String) :
    (quoted q text).toList = q.mark :: text.toList ++ [q.mark] := by
  simp [quoted]

/-- **One pair of quotes** is taken away. -/
theorem unquote_quoted (q : Quote) (text : String) : unquote (quoted q text) = text := by
  have hMark : q.mark = '"' ∨ q.mark = '\'' := by
    cases q
    · exact .inr rfl
    · exact .inl rfl
  unfold unquote
  rw [toList_quoted]
  cases hText : text.toList with
  | nil =>
      obtain rfl : text = "" := String.toList_inj.mp hText
      simp [hMark]
  | cons c cs =>
      have hLast : (c :: cs ++ [q.mark]).getLast? = some q.mark := List.getLast?_concat
      rw [List.cons_append] at hLast
      have hFront : (c :: (cs ++ [q.mark])).dropLast = text.toList := by
        rw [hText, ← List.cons_append, List.dropLast_concat]
      simp only [List.cons_append, hMark, hLast, true_and, if_true, hFront, String.ofList_toList]

/-- Where there is no pair, nothing is taken away. -/
theorem unquote_of_not_quoted (h : ∀ q text, value ≠ quoted q text) : unquote value = value := by
  unfold unquote
  split
  · rename_i c d cs hChars
    rw [if_neg]
    rintro ⟨hMark, hLast⟩
    obtain ⟨front, hFront⟩ := List.getLast?_eq_some_iff.mp hLast
    obtain ⟨q, rfl⟩ : ∃ q : Quote, q.mark = c := by
      rcases hMark with rfl | rfl
      · exact ⟨.double, rfl⟩
      · exact ⟨.single, rfl⟩
    apply h q (String.ofList front)
    apply String.toList_inj.mp
    rw [toList_quoted, hChars, hFront, String.toList_ofList]
    rfl
  · rfl

/-! ## What is asked for -/

theorem not_mem_of_isAliasName (h : isAliasName name = true) : '=' ∉ name.toList := by
  intro hc
  have hGood := (isAliasName_iff.mp h).2 '=' hc
  cases hGood

/-- A definition is refused for its name, or it is the one change that is asked for. -/
theorem defineAliases_definition (hName : '=' ∉ name.toList) (value : String) (ctx : Context σ) :
    defineAliases [name ++ "=" ++ value] ctx =
      if isAliasName name then
        .changing { aliases := (∅ : Table String String).insert name (unquote value) }
      else
        { stderr := Text.asLines ["alias: '" ++ name ++ "': invalid alias name"]
          status := 1 } := by
  have hCut : Text.cut '=' (name ++ "=" ++ value) = some (name, value) :=
    Text.cut_append hName value
  simp only [defineAliases, List.isEmpty_cons, Bool.false_eq_true, if_false, List.foldl_cons,
    List.foldl_nil, aliasArg, hCut]
  cases isAliasName name <;> rfl

theorem isAliasName_of_defineAliases (hName : '=' ∉ name.toList) {ctx : Context σ}
    (h : (defineAliases [name ++ "=" ++ value] ctx).status = 0) : isAliasName name = true := by
  cases hGood : isAliasName name with
  | true => rfl
  | false =>
      rw [defineAliases_definition hName, hGood] at h
      cases h

/-- A known name is the one removal that is asked for, unless it is the option. -/
theorem removeAliases_name {ctx : Context σ} {aliases : Table String String}
    (hAliases : ctx.aliases = some aliases) (hName : isAliasName name = true)
    (hKnown : aliases.contains name = true) (hOption : name ≠ "-a") :
    removeAliases [name] ctx = .changing { unaliases := [name] } := by
  simp [removeAliases, unaliasArg, hAliases, hName, hKnown, hOption, Outcome.withErrors,
    Outcome.changing]
  rfl

/-- The option asks for the removal of all. -/
theorem removeAliases_option (ctx : Context σ) :
    removeAliases ["-a"] ctx = .changing { clearAliases := true } :=
  rfl

end Builtin

/-! ## Defined and removed -/

open Builtin Session

variable {σ : Type} {shell : Shell σ}

/-- An alias is entered, and nothing else is changed. -/
theorem apply_alias (name value : String) (s : Session σ) :
    let c : Changes := { aliases := (∅ : Table String String).insert name value }
    apply shell c s =
      .ok none { s with aliases := s.aliases.insert name value,
                        machine := s.machine.log (.applied c) } :=
  apply_onNames ⟨rfl, rfl, rfl⟩

/-- An alias is removed, and nothing else is changed. -/
theorem apply_unalias (name : String) (s : Session σ) :
    let c : Changes := { unaliases := [name] }
    apply shell c s =
      .ok none { s with aliases := s.aliases.erase name,
                        machine := s.machine.log (.applied c) } :=
  apply_onNames ⟨rfl, rfl, rfl⟩

/-- All aliases are removed, and nothing else is changed. -/
theorem apply_clear (s : Session σ) :
    let c : Changes := { clearAliases := true }
    apply shell c s =
      .ok none { s with aliases := ∅, machine := s.machine.log (.applied c) } :=
  apply_onNames ⟨rfl, rfl, rfl⟩

/--
**An alias defined and removed.** If `alias` takes the definition of a name, its changes give the
name the text of the definition, without one pair of quotes of a kind around it, and leave every
other alias and all else in the session as it was. If `unalias` is then called with the name and
its changes are made, the alias is gone. Every other alias is what it was before, unless the
name is the one that `unalias` takes for an option: then all aliases are gone.
-/
theorem unalias_removes_defined (shell : Shell σ) (s : Session σ) (name value : String)
    (hName : '=' ∉ name.toList)
    (hOk : (defineAliases [name ++ "=" ++ value] (s.context shell)).status = 0) :
    ∃ t u, apply shell (defineAliases [name ++ "=" ++ value] (s.context shell)).changes s =
        .ok none t ∧
      t = { s with aliases := s.aliases.insert name (unquote value), machine := t.machine } ∧
      t.aliases.get? name = some (unquote value) ∧
      (∀ other, other ≠ name → t.aliases.get? other = s.aliases.get? other) ∧
      ((∀ q text, value = quoted q text → unquote value = text) ∧
        ((∀ q text, value ≠ quoted q text) → unquote value = value)) ∧
      apply shell (removeAliases [name] (t.context shell)).changes t = .ok none u ∧
      (removeAliases [name] (t.context shell)).status = 0 ∧
      u = { t with aliases := u.aliases, machine := u.machine } ∧
      u.aliases.get? name = none ∧
      (name ≠ "-a" → ∀ other, other ≠ name → u.aliases.get? other = s.aliases.get? other) ∧
      (name = "-a" → u.aliases = ∅) := by
  have hGood : isAliasName name = true := isAliasName_of_defineAliases hName hOk
  obtain ⟨t, hDefine, hSame⟩ : ∃ t, apply shell
      { aliases := (∅ : Table String String).insert name (unquote value) } s = .ok none t ∧
      t = { s with aliases := s.aliases.insert name (unquote value), machine := t.machine } :=
    ⟨_, apply_alias name (unquote value) s, rfl⟩
  have hAliases : t.aliases = s.aliases.insert name (unquote value) := by rw [hSame]
  have hOthers : ∀ other, other ≠ name → t.aliases.get? other = s.aliases.get? other := by
    intro other hOther
    rw [hAliases, Table.get?_insert, if_neg (Ne.symm hOther)]
  have hSelf : t.aliases.get? name = some (unquote value) := by
    rw [hAliases, Table.get?_insert_self]
  have hText : (∀ q text, value = quoted q text → unquote value = text) ∧
      ((∀ q text, value ≠ quoted q text) → unquote value = value) := by
    refine ⟨?_, unquote_of_not_quoted⟩
    rintro q text rfl
    exact unquote_quoted q text
  rw [defineAliases_definition hName, if_pos hGood]
  by_cases hOption : name = "-a"
  · subst hOption
    have hRemove : removeAliases ["-a"] (t.context shell) = .changing { clearAliases := true } :=
      removeAliases_option _
    exact ⟨t, _, hDefine, hSame, hSelf, hOthers, hText, by rw [hRemove]; exact apply_clear t,
      by rw [hRemove]; rfl, rfl, rfl, fun hNot => absurd rfl hNot, fun _ => rfl⟩
  · have hKnown : t.aliases.contains name = true := by rw [Table.contains, hSelf]; rfl
    have hRemove : removeAliases [name] (t.context shell) =
        .changing { unaliases := [name] } :=
      removeAliases_name rfl hGood hKnown hOption
    refine ⟨t, _, hDefine, hSame, hSelf, hOthers, hText,
      by rw [hRemove]; exact apply_unalias name t, by rw [hRemove]; rfl, rfl, ?_, ?_, fun hSameName => absurd hSameName hOption⟩
    · exact (Table.get?_erase _ _ _).trans (if_pos rfl)
    · intro _ other hOther
      exact ((Table.get?_erase _ _ _).trans (if_neg hOther)).trans (hOthers other hOther)

/-- A session with an alias for listings. -/
def listingSession : Session FileTree :=
  Session.start ∅ (.ofList [("ll", "ls -l")]) .empty

theorem unalias_removes_defined_listingSession :
    ((defineAliases ["g='grep -n'"] (listingSession.context Cli.shell)).status = 0 ∧
      ∃ t u, apply Cli.shell (defineAliases ["g='grep -n'"]
          (listingSession.context Cli.shell)).changes listingSession = .ok none t ∧
        t.aliases.get? "g" = some "grep -n" ∧ t.aliases.get? "ll" = some "ls -l" ∧
        apply Cli.shell (removeAliases ["g"] (t.context Cli.shell)).changes t = .ok none u ∧
        u.aliases.get? "g" = none ∧ u.aliases.get? "ll" = some "ls -l") ∧
    (defineAliases ["-a=x"] (listingSession.context Cli.shell)).status = 0 ∧
      ∃ t u, apply Cli.shell (defineAliases ["-a=x"]
          (listingSession.context Cli.shell)).changes listingSession = .ok none t ∧
        t.aliases.get? "-a" = some "x" ∧ t.aliases.get? "ll" = some "ls -l" ∧
        apply Cli.shell (removeAliases ["-a"] (t.context Cli.shell)).changes t = .ok none u ∧
        u.aliases = ∅ := by
  have hName : (defineAliases ["g='grep -n'"] (listingSession.context Cli.shell)).status = 0 := by
    decide +kernel
  have hOption : (defineAliases ["-a=x"] (listingSession.context Cli.shell)).status = 0 := by
    decide +kernel
  refine ⟨⟨hName, ?_⟩, hOption, ?_⟩
  · obtain ⟨t, u, hDefine, -, hSelf, hOthers, hText, hRemove, -, -, hGone, hKept, -⟩ :=
      unalias_removes_defined Cli.shell listingSession "g" "'grep -n'" (by decide) hName
    have hValue : unquote "'grep -n'" = "grep -n" := hText.1 .single "grep -n" (by decide)
    exact ⟨t, u, hDefine, hSelf.trans (congrArg some hValue), hOthers "ll" (by decide), hRemove,
      hGone, hKept (by decide) "ll" (by decide)⟩
  · obtain ⟨t, u, hDefine, -, hSelf, hOthers, -, hRemove, -, -, -, -, hAll⟩ :=
      unalias_removes_defined Cli.shell listingSession "-a" "x" (by decide) hOption
    exact ⟨t, u, hDefine, hSelf, hOthers "ll" (by decide), hRemove, hAll rfl⟩

/-- The alias that is named as the option does not go alone. -/
theorem not_removed_alone :
    (defineAliases ["-a=x"] (listingSession.context Cli.shell)).status = 0 ∧
      ∃ t u, apply Cli.shell (defineAliases ["-a=x"]
          (listingSession.context Cli.shell)).changes listingSession = .ok none t ∧
        apply Cli.shell (removeAliases ["-a"] (t.context Cli.shell)).changes t = .ok none u ∧
        listingSession.aliases.get? "ll" = some "ls -l" ∧ u.aliases.get? "ll" = none := by
  have hName : '=' ∉ "-a".toList := by decide
  have hDefine : defineAliases ["-a" ++ "=" ++ "x"] (listingSession.context Cli.shell) =
      .changing { aliases := (∅ : Table String String).insert "-a" (unquote "x") } := by
    rw [defineAliases_definition hName, if_pos (by decide)]
  have hArgs : "-a" ++ "=" ++ "x" = "-a=x" := by decide
  rw [hArgs] at hDefine
  rw [hDefine]
  exact ⟨rfl, _, _, apply_alias "-a" (unquote "x") listingSession, apply_clear _, by decide, rfl⟩

end MemShell
