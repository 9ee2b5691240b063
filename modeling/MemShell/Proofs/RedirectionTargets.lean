import MemShell.Proofs.CommandPositions
import MemShell.Tree.Parse

/-!
# File names are not aliases

A redirection does not change the position of the reader of aliases. At the start of
a command a file name after `>` therefore counts as the command name, and is replaced
if it names an alias: with `ll` for `ls -l`, the tokens of `> ll` become those of
`> ls -l`. A reader that spares file names would keep them as they are
(`expandSparing`). No line that has trees tells the two apart.

The reason is an invariant between the two readers that meet in the output. Where
the reader of aliases expects a command name, at any depth, the reader of trees has
read the output so far up to the start of a command (`Mode.isStart`): both begin
there, a boundary leads both there, and a value is read where its name stood. So a
redirection that leaves the one in command position is refused by the other.

## Main results

* `Expands.expandSparing_eq` — the invariant along an expansion.
* `expandAliasesSparing_eq` — in a line that has trees, file names are not replaced.
-/

namespace MemShell

namespace Token

/-! ## Expansion that spares file names -/

/-- Expands tokens with the aliases that are still live, but never a token directly after a
redirection operator; `spared` says that such an operator came just before. -/
def expandSparing (live : Table String String) :
    Bool → Position → List Token → Except LexError (List Token)
  | _, _, [] => .ok []
  | spared, position, t :: ts =>
      match _hLive : if spared = false ∧ position = .command ∧ t.kind = .word
          then live.get? t.value else none with
      | some value =>
          match tokenize value with
          | .error e => .error e
          | .ok replacement =>
              match expandSparing (live.erase t.value) false .command replacement with
              | .error e => .error e
              | .ok expanded =>
                  match expandSparing live false .argument ts with
                  | .error e => .error e
                  | .ok rest => .ok (expanded ++ rest)
      | none =>
          match expandSparing live t.kind.isRedirection (position.next t) ts with
          | .error e => .error e
          | .ok rest => .ok (t :: rest)
termination_by _ _ ts => (live.size, ts.length)
decreasing_by
  · apply Prod.Lex.left
    have hGet : live.get? t.value = some value := by
      split at _hLive
      · exact _hLive
      · simp at _hLive
    exact Table.size_erase_lt hGet
  · exact Prod.Lex.right _ (by simp)
  · exact Prod.Lex.right _ (by simp)

/-- Expands the aliases of a table but spares file names; names in `visited` are left as they
are. -/
def expandAliasesSparing (visited : List String) (aliases : Table String String)
    (ts : List Token) : Except LexError (List Token) :=
  expandSparing (aliases.filterKeys (· ∉ visited)) false .command ts

theorem expandSparing_nil (live : Table String String) (spared : Bool) (p : Position) :
    expandSparing live spared p [] = .ok [] := by
  rw [expandSparing]

private theorem expandSparing_cons_of_command {live : Table String String} {t : Token}
    {value : String} {ts replacement expanded rest : List Token} (hWord : t.kind = .word)
    (hGet : live.get? t.value = some value) (hValue : tokenize value = .ok replacement)
    (hExpanded : expandSparing (live.erase t.value) false .command replacement = .ok expanded)
    (hRest : expandSparing live false .argument ts = .ok rest) :
    expandSparing live false .command (t :: ts) = .ok (expanded ++ rest) := by
  rw [expandSparing]
  split
  · rename_i v hLive
    obtain rfl : value = v := by simpa [hWord, hGet] using hLive
    simp only [hValue, hExpanded, hRest]
  · rename_i hLive
    simp [hWord, hGet] at hLive

private theorem expandSparing_cons_keep {live : Table String String} {spared : Bool}
    {p : Position} {t : Token} {ts rest : List Token}
    (hKept : spared = false → p = .command → t.kind = .word → live.get? t.value = none)
    (hRest : expandSparing live t.kind.isRedirection (p.next t) ts = .ok rest) :
    expandSparing live spared p (t :: ts) = .ok (t :: rest) := by
  rw [expandSparing]
  split
  · rename_i value hLive
    split at hLive
    · rename_i hPlace
      simp [hKept hPlace.1 hPlace.2.1 hPlace.2.2] at hLive
    · simp at hLive
  · simp only [hRest]

end Token

/-! ## The two readers -/

namespace Tree.Parse

/-- Where a command name must or may come. -/
def Mode.isStart : Mode → Bool
  | fresh | name _ => true
  | _ => false

/-- What leaves the reader of aliases at a command name leaves the reader of trees there. -/
theorem isStart_of_step {m m' : Mode} {t : Token} {out : List Tree} {p : Position}
    (hStep : reader.step m t = .ok (out, m')) (hStart : p = .command → m.isStart = true)
    (hNext : p.next t = .command) : m'.isStart = true ∧ t.kind.isRedirection = false := by
  have hArgument : t.kind.isText = true → p.next t ≠ .command := by
    intro hText hCommand
    rw [Position.next_of_isText hText] at hCommand
    cases hCommand
  cases stepsTo_of_step hStep with
  | first hText => exact absurd hNext (hArgument hText)
  | name o hText => exact absurd hNext (hArgument hText)
  | arg o command args redirects hText => exact absurd hNext (hArgument hText)
  | file o command args redirects kind hText => exact absurd hNext (hArgument hText)
  | redirection o command args redirects hKind =>
      -- the position is unchanged, so the operator came at the start of a command
      have hSame : p.next t = p := by
        cases h : t.kind <;> simp_all [TokenKind.redirectKind?, Position.next,
          TokenKind.isBoundary, TokenKind.isText]
      rw [hSame] at hNext
      exact absurd (hStart hNext) (by simp [Mode.isStart])
  | pipe o command args redirects hKind => exact ⟨rfl, by rw [hKind]; rfl⟩
  | connective o command args redirects hKind =>
      refine ⟨rfl, ?_⟩
      cases h : t.kind <;> simp_all [TokenKind.connective?, TokenKind.isRedirection]
  | semicolon o command args redirects hKind => exact ⟨rfl, by rw [hKind]; rfl⟩

end Tree.Parse

namespace Token

open Tree.Parse

/-- **Sparing file names changes nothing** where the reader of trees accepts the output: while
the one reader expects a command name, so does the other, and no redirection has just been
read. -/
theorem Expands.expandSparing_eq {live : Table String String} {p : Position}
    {ts out : List Token} (h : Expands live p ts out) :
    ∀ {m m' : Mode} {trees : List Tree} {spared : Bool}, reader.feed m out = .ok (trees, m') →
      (p = .command → m.isStart = true) → (p = .command → spared = false) →
      expandSparing live spared p ts = .ok out := by
  induction h with
  | nil live p =>
      intro m m' trees spared _ _ _
      exact expandSparing_nil live spared p
  | keep hKept _ ih =>
      intro m m' trees spared hFeed hStart _
      obtain ⟨first, m₁, later, hStep, hLater, -⟩ := Transducer.feed_cons_eq_ok_iff.mp hFeed
      refine expandSparing_cons_keep (fun _ => hKept) (ih hLater ?_ ?_)
      · exact fun hNext => (isStart_of_step hStep hStart hNext).1
      · exact fun hNext => (isStart_of_step hStep hStart hNext).2
  | replace hWord hGet hValue _ _ ihExpanded ihRest =>
      intro m m' trees spared hFeed hStart hSpared
      obtain ⟨first, m₁, later, hFirst, hLater, -⟩ := Transducer.feed_append_eq_ok_iff.mp hFeed
      have hExpanded := ihExpanded hFirst (fun _ => hStart rfl) (fun _ => rfl)
      have hRest := ihRest hLater (fun h => by cases h) (fun _ => rfl)
      rw [hSpared rfl]
      exact expandSparing_cons_of_command hWord hGet hValue hExpanded hRest

/--
**File names are not aliases.** If tokens can be expanded and the result has trees, an
expansion that never replaces the token after a redirection operator, in the line or in
a value, gives the same result.
-/
theorem expandAliasesSparing_eq {visited : List String} {aliases : Table String String}
    {ts out : List Token} {trees : List Tree}
    (hExpand : expandAliasesExcept visited aliases ts = .ok out)
    (hBuild : Tree.build out = .ok trees) :
    expandAliasesSparing visited aliases ts = .ok out := by
  obtain ⟨before, m, rest, hFeed, -, -⟩ := Transducer.run_eq_ok_iff.mp hBuild
  have hExpands : Expands (aliases.filterKeys (· ∉ visited)) .command ts out :=
    expands_iff.mpr hExpand
  exact hExpands.expandSparing_eq hFeed (fun _ => rfl) (fun _ => rfl)

/-- A value with a redirection to the name of its alias. -/
def redirectingAliases : Table String String :=
  .ofList [("ll", "ls > ll"), ("ls", "ll -a")]

/-- The tokens of `ll | ll >> ll`. -/
def redirectingTokens : List Token :=
  [⟨.word, "ll"⟩, ⟨.pipe, "|"⟩, ⟨.word, "ll"⟩, ⟨.append, ">>"⟩, ⟨.word, "ll"⟩]

/-- The tokens of `ls > ll | ls > ll >> ll`. -/
def redirectedTokens : List Token :=
  [⟨.word, "ls"⟩, ⟨.redirect, ">"⟩, ⟨.word, "ll"⟩, ⟨.pipe, "|"⟩, ⟨.word, "ls"⟩,
    ⟨.redirect, ">"⟩, ⟨.word, "ll"⟩, ⟨.append, ">>"⟩, ⟨.word, "ll"⟩]

/-- The tokens of `> ll` have no trees, and there the file name would be replaced. -/
theorem expandAliasesSparing_redirecting :
    (expandAliasesExcept ["ls"] redirectingAliases redirectingTokens = .ok redirectedTokens ∧
      Tree.build redirectedTokens =
        .ok [.pipeline [⟨"ls", [], [⟨.write, "ll"⟩]⟩,
          ⟨"ls", [], [⟨.write, "ll"⟩, ⟨.append, "ll"⟩]⟩]] ∧
      expandAliasesSparing ["ls"] redirectingAliases redirectingTokens =
        .ok redirectedTokens) ∧
    expandAliasesExcept ["ls"] redirectingAliases [⟨.redirect, ">"⟩, ⟨.word, "ll"⟩] =
      .ok [⟨.redirect, ">"⟩, ⟨.word, "ls"⟩, ⟨.redirect, ">"⟩, ⟨.word, "ll"⟩] ∧
    expandAliasesSparing ["ls"] redirectingAliases [⟨.redirect, ">"⟩, ⟨.word, "ll"⟩] =
      .ok [⟨.redirect, ">"⟩, ⟨.word, "ll"⟩] := by
  let live := redirectingAliases.filterKeys (· ∉ ["ls"])
  let value : List Token := [⟨.word, "ls"⟩, ⟨.redirect, ">"⟩, ⟨.word, "ll"⟩]
  have hValue : Expands (live.erase "ll") .command value value :=
    .keep (by decide) (.keep (by decide) (.keep (by decide) (.nil _ _)))
  have hFiles : Expands live .argument [⟨.append, ">>"⟩, ⟨.word, "ll"⟩]
      [⟨.append, ">>"⟩, ⟨.word, "ll"⟩] :=
    .keep (by decide) (.keep (by decide) (.nil _ _))
  have hStage : Expands live .command [⟨.word, "ll"⟩, ⟨.append, ">>"⟩, ⟨.word, "ll"⟩]
      (value ++ [⟨.append, ">>"⟩, ⟨.word, "ll"⟩]) := .replace rfl rfl rfl hValue hFiles
  have hLine : Expands live .command redirectingTokens
      (value ++ ⟨.pipe, "|"⟩ :: (value ++ [⟨.append, ">>"⟩, ⟨.word, "ll"⟩])) :=
    .replace rfl rfl rfl hValue (.keep (by decide) hStage)
  have hFile : Expands live .command [⟨.redirect, ">"⟩, ⟨.word, "ll"⟩]
      (⟨.redirect, ">"⟩ :: (value ++ [])) :=
    .keep (by decide) (.replace rfl rfl rfl hValue (.nil _ _))
  have hExpand : expandAliasesExcept ["ls"] redirectingAliases redirectingTokens =
      .ok redirectedTokens := hLine.expandLive_eq
  have hSpared : expandSparing live false .command [⟨.redirect, ">"⟩, ⟨.word, "ll"⟩] =
      .ok [⟨.redirect, ">"⟩, ⟨.word, "ll"⟩] :=
    expandSparing_cons_keep (by decide)
      (expandSparing_cons_keep (by decide) (expandSparing_nil _ _ _))
  exact ⟨⟨hExpand, rfl, expandAliasesSparing_eq hExpand rfl⟩, hFile.expandLive_eq, hSpared⟩

end Token

end MemShell
