import Mathlib.Data.List.Chain
import Mathlib.Data.List.Perm.Subperm
import MemShell.Proofs.CommandPositions

/-!
# Chains of aliases

Values name aliases, whose values name aliases, and nothing keeps a table from going
round in a circle. The expansion ends all the same because it keeps a list of the names
whose values it is inside of, and replaces none of them again. Here that list is made
visible. A run of the expansion is a derivation with the list of names that are set
aside in place of the table that is still live, and it notes each name that it replaces
with the names around it (`Runs`). Every list of tokens has a run (`exists_runs`), and
along each chain that a run notes the names are different and none was set aside at the
start (`Runs.freshChain`), so that a chain is never longer than the table.

A run fails where it comes to a value that cannot be split into tokens. Which values it
comes to depends on the way, since a name that was met before on the same way is skipped.
That it fails does not: what can be reached by going through a name twice can be reached
from that name without going through it again (`LeadsToUnreadable.erase`). So a run fails
exactly if some chain, with repetitions or without, leads from the tokens to such a value
(`exists_error_iff`).

## Main results

* `exists_runs`, `Runs.expandLive_eq` — every expansion ends, with the answer that the live
  table gives.
* `Runs.freshChain` — the names along a chain of replacements are different.
* `expandAliases_chains` — when an expansion fails.
-/

namespace MemShell.Token

variable {aliases live : Table String String}

/-! ## Runs of the expansion -/

/-- Setting one more name aside takes it out of the live aliases. -/
theorem erase_filterKeys (aliases : Table String String) (visited : List String)
    (name : String) :
    (aliases.filterKeys (· ∉ visited)).erase name = aliases.filterKeys (· ∉ name :: visited) := by
  apply Table.ext
  simp only [Table.erase, Table.filterKeys, List.filter_filter]
  refine List.filter_congr fun e _ => ?_
  by_cases hName : e.1 = name <;> simp [hName]

theorem get?_live_eq_some_iff {visited : List String} {name value : String} :
    (aliases.filterKeys (· ∉ visited)).get? name = some value ↔
      name ∉ visited ∧ aliases.get? name = some value := by
  rw [Table.get?_filterKeys]
  by_cases hVisited : name ∈ visited <;> simp [hVisited]

/-- With nothing set aside, all aliases are live. -/
@[simp] theorem expandAliasesExcept_nil (aliases : Table String String) (ts : List Token) :
    expandAliasesExcept [] aliases ts = expandAliases aliases ts := by
  have hAll : aliases.filterKeys (· ∉ []) = aliases := by
    apply Table.ext
    simp [Table.filterKeys]
  rw [expandAliasesExcept, hAll]

/-- Runs of the expansion of tokens while the names `visited` are set aside. The chains are
those of the names that were replaced, each with the names in whose values it stood. -/
inductive Runs (aliases : Table String String) :
    List String → Position → List Token → List (List String) → Except LexError (List Token) → Prop
  | done (visited : List String) (p : Position) : Runs aliases visited p [] [] (.ok [])
  | kept {visited : List String} {p : Position} {t : Token} {ts : List Token}
      {chains : List (List String)} {answer : Except LexError (List Token)}
      (hKept : p = .command → t.kind = .word → aliases.contains t.value = true → t.value ∈ visited)
      (hRest : Runs aliases visited (p.next t) ts chains answer) :
      Runs aliases visited p (t :: ts) chains (answer.map (t :: ·))
  | unreadable {visited : List String} {t : Token} {ts : List Token} {value : String}
      {e : LexError} (hWord : t.kind = .word) (hGet : aliases.get? t.value = some value)
      (hNew : t.value ∉ visited) (hValue : tokenize value = .error e) :
      Runs aliases visited .command (t :: ts) [[t.value]] (.error e)
  | failed {visited : List String} {t : Token} {ts us : List Token} {value : String}
      {inner : List (List String)} {e : LexError} (hWord : t.kind = .word)
      (hGet : aliases.get? t.value = some value) (hNew : t.value ∉ visited)
      (hValue : tokenize value = .ok us)
      (hInner : Runs aliases (t.value :: visited) .command us inner (.error e)) :
      Runs aliases visited .command (t :: ts) ([t.value] :: inner.map (t.value :: ·)) (.error e)
  | replaced {visited : List String} {t : Token} {ts us expanded : List Token} {value : String}
      {inner chains : List (List String)} {answer : Except LexError (List Token)}
      (hWord : t.kind = .word) (hGet : aliases.get? t.value = some value)
      (hNew : t.value ∉ visited) (hValue : tokenize value = .ok us)
      (hInner : Runs aliases (t.value :: visited) .command us inner (.ok expanded))
      (hRest : Runs aliases visited .argument ts chains answer) :
      Runs aliases visited .command (t :: ts) ([t.value] :: inner.map (t.value :: ·) ++ chains)
        (answer.map (expanded ++ ·))

namespace Runs

variable {visited : List String} {p : Position} {ts : List Token}
  {chains : List (List String)} {answer : Except LexError (List Token)}

/-- A run ends with the answer that the live aliases give. -/
theorem expandLive_eq (h : Runs aliases visited p ts chains answer) :
    expandLive (aliases.filterKeys (· ∉ visited)) p ts = answer := by
  induction h with
  | done visited p => exact expandLive_nil _ p
  | @kept visited p t ts chains answer hKept _ ih =>
      have hNone : p = .command → t.kind = .word →
          (aliases.filterKeys (· ∉ visited)).get? t.value = none := by
        intro hPlace hWord
        refine Option.eq_none_iff_forall_ne_some.mpr fun value hLive => ?_
        obtain ⟨hNew, hGet⟩ := get?_live_eq_some_iff.mp hLive
        exact hNew (hKept hPlace hWord (by simp [Table.contains, hGet]))
      rw [expandLive_cons_keep hNone, ih]
  | unreadable hWord hGet hNew hValue =>
      rw [expandLive_cons_of_command hWord (get?_live_eq_some_iff.mpr ⟨hNew, hGet⟩), hValue]
      rfl
  | failed hWord hGet hNew hValue _ ih =>
      rw [expandLive_cons_of_command hWord (get?_live_eq_some_iff.mpr ⟨hNew, hGet⟩), hValue,
        erase_filterKeys]
      simp only [bind, Except.bind, ih]
  | @replaced _ _ _ _ _ _ _ _ answer hWord hGet hNew hValue _ _ ihInner ihRest =>
      rw [expandLive_cons_of_command hWord (get?_live_eq_some_iff.mpr ⟨hNew, hGet⟩), hValue,
        erase_filterKeys]
      simp only [bind, Except.bind, ihInner, ihRest]
      cases answer <;> rfl

end Runs

/-- Without live aliases to go into, a run comes to the end of the tokens; each value that it
goes into leaves one alias less. -/
private theorem exists_runs_of_live (live : Table String String) (p : Position)
    (ts : List Token) :
    ∀ visited, live = aliases.filterKeys (· ∉ visited) →
      ∃ chains answer, Runs aliases visited p ts chains answer := by
  induction live, p, ts using expandInduction with
  | nil live p =>
      intro visited _
      exact ⟨[], .ok [], .done visited p⟩
  | keep live p t ts hKept ih =>
      intro visited hLive
      obtain ⟨chains, answer, hRest⟩ := ih visited hLive
      refine ⟨chains, _, .kept (fun hPlace hWord hAlias => ?_) hRest⟩
      by_contra hNew
      obtain ⟨value, hGet⟩ := Option.isSome_iff_exists.mp hAlias
      have hNone := hKept hPlace hWord
      rw [hLive, get?_live_eq_some_iff.mpr ⟨hNew, hGet⟩] at hNone
      cases hNone
  | replace live t value ts hWord hGet ihValue ihRest =>
      intro visited hLive
      rw [hLive] at hGet
      obtain ⟨hNew, hAlias⟩ := get?_live_eq_some_iff.mp hGet
      cases hValue : tokenize value with
      | error e => exact ⟨_, _, .unreadable hWord hAlias hNew hValue⟩
      | ok us =>
          have hErase : live.erase t.value = aliases.filterKeys (· ∉ t.value :: visited) := by
            rw [hLive, erase_filterKeys]
          obtain ⟨inner, answer, hInner⟩ := ihValue us hValue (t.value :: visited) hErase
          cases answer with
          | error e => exact ⟨_, _, .failed hWord hAlias hNew hValue hInner⟩
          | ok expanded =>
              obtain ⟨chains, rest, hRest⟩ := ihRest visited hLive
              exact ⟨_, _, .replaced hWord hAlias hNew hValue hInner hRest⟩

/-- **Every expansion ends**, whatever the table. -/
theorem exists_runs (aliases : Table String String) (visited : List String) (p : Position)
    (ts : List Token) : ∃ chains answer, Runs aliases visited p ts chains answer :=
  exists_runs_of_live _ p ts visited rfl

/-! ## The names along a chain -/

/-- Different names of aliases, none of which is set aside. -/
structure FreshChain (aliases : Table String String) (visited chain : List String) : Prop where
  nodup : chain.Nodup
  isAlias : ∀ name ∈ chain, aliases.contains name = true
  unvisited : ∀ name ∈ chain, name ∉ visited

namespace FreshChain

variable {visited chain : List String} {name value : String}

theorem nil : FreshChain aliases visited [] :=
  ⟨List.nodup_nil, by simp, by simp⟩

/-- A name in front of a chain that was found inside its value. -/
theorem cons (hGet : aliases.get? name = some value) (hNew : name ∉ visited)
    (h : FreshChain aliases (name :: visited) chain) :
    FreshChain aliases visited (name :: chain) where
  nodup := by
    refine List.nodup_cons.mpr ⟨fun hMem => ?_, h.nodup⟩
    exact h.unvisited name hMem List.mem_cons_self
  isAlias := by
    refine List.forall_mem_cons.mpr ⟨?_, h.isAlias⟩
    simp [Table.contains, hGet]
  unvisited := by
    refine List.forall_mem_cons.mpr ⟨hNew, fun other hMem hVisited => ?_⟩
    exact h.unvisited other hMem (List.mem_cons_of_mem _ hVisited)

/-- The chains that start with a name, from those found inside its value. -/
theorem inside {inner : List (List String)} (hGet : aliases.get? name = some value)
    (hNew : name ∉ visited) (hInner : ∀ chain ∈ inner, FreshChain aliases (name :: visited) chain) :
    ∀ chain ∈ [name] :: inner.map (name :: ·), FreshChain aliases visited chain := by
  refine List.forall_mem_cons.mpr ⟨.cons hGet hNew .nil, List.forall_mem_map.mpr ?_⟩
  exact fun chain hChain => .cons hGet hNew (hInner chain hChain)

/-- A chain is not longer than the table. -/
theorem length_le (h : FreshChain aliases visited chain) : chain.length ≤ aliases.size := by
  have hKeys : chain ⊆ aliases.keys := fun name hMem => Table.mem_keys_iff.mpr (h.isAlias name hMem)
  have hLength := (List.subperm_of_subset h.nodup hKeys).length_le
  simpa [Table.keys, Table.size] using hLength

end FreshChain

/-- **Along each chain of a run** the names are different, and none was set aside. -/
theorem Runs.freshChain {visited : List String} {p : Position} {ts : List Token}
    {chains : List (List String)} {answer : Except LexError (List Token)}
    (h : Runs aliases visited p ts chains answer) :
    ∀ chain ∈ chains, FreshChain aliases visited chain := by
  induction h with
  | done visited p =>
      intro chain hChain
      cases hChain
  | kept _ _ ih => exact ih
  | unreadable _ hGet hNew _ =>
      exact List.forall_mem_singleton.mpr (.cons hGet hNew .nil)
  | failed _ hGet hNew _ _ ih => exact .inside hGet hNew ih
  | replaced _ hGet hNew _ _ _ ihInner ihRest =>
      exact List.forall_mem_append.mpr ⟨.inside hGet hNew ihInner, ihRest⟩

/-! ## Values that cannot be read -/

theorem mem_commandWords_cons_iff {p : Position} {t : Token} {ts : List Token} {name : String} :
    name ∈ commandWords p (t :: ts) ↔
      (p = .command ∧ t.kind = .word ∧ name = t.value) ∨ name ∈ commandWords (p.next t) ts := by
  rw [commandWords]
  split
  · rename_i hPlace
    simp [hPlace]
  · rename_i hPlace
    simp only [not_and] at hPlace
    exact ⟨.inr, fun h => h.resolve_left fun hFirst => hPlace hFirst.1 hFirst.2.1⟩

/-- Tokens that lead to a value that cannot be split into tokens: the value of some alias
where a command name stands cannot be split, or its tokens lead to such a value. -/
inductive LeadsToUnreadable (live : Table String String) : Position → List Token → Prop
  | through {p : Position} {ts : List Token} {name value : String}
      (hName : name ∈ commandWords p ts) (hGet : live.get? name = some value)
      (hTokens : ∀ us, tokenize value = .ok us → LeadsToUnreadable live .command us) :
      LeadsToUnreadable live p ts

namespace LeadsToUnreadable

variable {p : Position} {t : Token} {ts : List Token}

theorem mono {live' : Table String String} (hWithin : Within live live')
    (h : LeadsToUnreadable live p ts) : LeadsToUnreadable live' p ts := by
  induction h with
  | through hName hGet _ ih => exact .through hName (hWithin _ _ hGet) ih

/-- What leads on after a token leads on with the token in front. -/
theorem of_tail (h : LeadsToUnreadable live (p.next t) ts) :
    LeadsToUnreadable live p (t :: ts) := by
  cases h with
  | through hName hGet hTokens => exact .through (mem_commandWords_cons hName) hGet hTokens

/-- The way leads through the first token or through a later one. -/
theorem first_or_tail (h : LeadsToUnreadable live p (t :: ts)) :
    (p = .command ∧ t.kind = .word ∧ ∃ value, live.get? t.value = some value ∧
        ∀ us, tokenize value = .ok us → LeadsToUnreadable live .command us) ∨
      LeadsToUnreadable live (p.next t) ts := by
  cases h with
  | through hName hGet hTokens =>
      rcases mem_commandWords_cons_iff.mp hName with ⟨hPlace, hWord, rfl⟩ | hLater
      · exact .inl ⟨hPlace, hWord, _, hGet, hTokens⟩
      · exact .inr (.through hLater hGet hTokens)

/-- **No need to go through a name twice.** What can be reached at all is reached without
going through the name, or from its value without going through the name again. -/
theorem erase {name value : String} (hAlias : live.get? name = some value)
    (h : LeadsToUnreadable live p ts) :
    LeadsToUnreadable (live.erase name) p ts ∨
      ∀ us, tokenize value = .ok us → LeadsToUnreadable (live.erase name) .command us := by
  by_cases hFound : ∀ us, tokenize value = .ok us → LeadsToUnreadable (live.erase name) .command us
  · exact .inr hFound
  · refine .inl ?_
    induction h with
    | @through p ts key v hName hGet _ ih =>
        have hOther : key ≠ name := by
          rintro rfl
          obtain rfl : value = v := Option.some.inj (hAlias.symm.trans hGet)
          exact hFound ih
        exact .through hName (by rw [Table.get?_erase, if_neg hOther, hGet]) ih

end LeadsToUnreadable

/-- Tokens that are expanded lead to no value that cannot be read. -/
theorem Expands.not_leadsToUnreadable {p : Position} {ts out : List Token}
    (h : Expands live p ts out) : ¬ LeadsToUnreadable live p ts := by
  induction h with
  | nil live p =>
      intro hLeads
      cases hLeads with
      | through hName _ _ => cases hName
  | keep hKept _ ih =>
      intro hLeads
      rcases hLeads.first_or_tail with ⟨hPlace, hWord, value, hGet, -⟩ | hLater
      · rw [hKept hPlace hWord] at hGet
        cases hGet
      · exact ih hLater
  | @replace live t value ts replacement expanded rest hWord hGet hValue _ _ ihExpanded ihRest =>
      intro hLeads
      rcases hLeads.first_or_tail with ⟨-, -, v, hGet', hTokens⟩ | hLater
      · obtain rfl : value = v := Option.some.inj (hGet.symm.trans hGet')
        -- inside the value the name is not live any more
        rcases (hTokens replacement hValue).erase hGet with hInner | hAgain
        · exact ihExpanded hInner
        · exact ihExpanded (hAgain replacement hValue)
      · rw [Position.next_of_word hWord] at hLater
        exact ihRest hLater

/-- Tokens whose expansion fails lead to a value that cannot be read. -/
theorem leadsToUnreadable_of_error (live : Table String String) (p : Position)
    (ts : List Token) :
    ∀ {e : LexError}, expandLive live p ts = .error e → LeadsToUnreadable live p ts := by
  induction live, p, ts using expandInduction with
  | nil live p =>
      intro e h
      rw [expandLive_nil] at h
      cases h
  | keep live p t ts hKept ih =>
      intro e h
      rw [expandLive_cons_keep hKept] at h
      cases hRest : expandLive live (p.next t) ts with
      | error e' => exact .of_tail (ih hRest)
      | ok rest => simp [hRest, Except.map] at h
  | replace live t value ts hWord hGet ihValue ihRest =>
      intro e h
      rw [expandLive_cons_of_command hWord hGet] at h
      have hName : t.value ∈ commandWords .command (t :: ts) :=
        mem_commandWords_cons_iff.mpr (.inl ⟨rfl, hWord, rfl⟩)
      have hWithin : Within (live.erase t.value) live := Within.erase (fun _ _ hKey => hKey) t.value
      cases hValue : tokenize value with
      | error e' => exact .through hName hGet fun us hUs => by rw [hValue] at hUs; cases hUs
      | ok us =>
          cases hInner : expandLive (live.erase t.value) .command us with
          | error e' =>
              refine .through hName hGet fun us' hUs => ?_
              obtain rfl : us = us' := Except.ok.inj (hValue.symm.trans hUs)
              exact (ihValue us hValue hInner).mono hWithin
          | ok expanded =>
              cases hRest : expandLive live .argument ts with
              | error e' =>
                  refine .of_tail ?_
                  rw [Position.next_of_word hWord]
                  exact ihRest hRest
              | ok rest => simp [hValue, hInner, hRest, bind, Except.bind, pure, Except.pure] at h

/-- **An expansion fails** exactly if the tokens lead to a value that cannot be read. -/
theorem exists_error_iff {p : Position} {ts : List Token} :
    (∃ e, expandLive live p ts = .error e) ↔ LeadsToUnreadable live p ts := by
  refine ⟨fun ⟨e, h⟩ => leadsToUnreadable_of_error live p ts h, fun hLeads => ?_⟩
  cases hRun : expandLive live p ts with
  | error e => exact ⟨e, rfl⟩
  | ok out => exact absurd hLeads (expands_iff.mpr hRun).not_leadsToUnreadable

/-! ## Chains of names -/

/-- The second name stands where a command name stands in the value of the first. -/
def Mentions (aliases : Table String String) (name inner : String) : Prop :=
  ∃ value us, aliases.get? name = some value ∧ tokenize value = .ok us ∧
    inner ∈ commandWords .command us

/-- A chain of names from tokens to a value that cannot be read. The first name stands where a
command name stands in the tokens, and each one that follows does so in the value before it;
all of them are aliases that are not set aside. -/
structure UnreadableChain (aliases : Table String String) (visited : List String) (p : Position)
    (ts : List Token) (first : String) (later : List String) : Prop where
  stands : first ∈ commandWords p ts
  linked : (first :: later).IsChain (Mentions aliases)
  live : ∀ name ∈ first :: later, aliases.contains name = true ∧ name ∉ visited
  unreadable : ∃ last ∈ (first :: later).getLast?, ∃ value e, aliases.get? last = some value ∧
    tokenize value = .error e

theorem leadsToUnreadable_of_chain {visited : List String} (later : List String) :
    ∀ {p : Position} {ts : List Token} {first : String},
      UnreadableChain aliases visited p ts first later →
      LeadsToUnreadable (aliases.filterKeys (· ∉ visited)) p ts := by
  induction later with
  | nil =>
      intro p ts first h
      obtain ⟨last, hLast, value, e, hGet, hValue⟩ := h.unreadable
      obtain rfl : first = last := Option.some.inj hLast
      have hNew := (h.live first (by simp)).2
      refine .through h.stands (get?_live_eq_some_iff.mpr ⟨hNew, hGet⟩) fun us hUs => ?_
      rw [hValue] at hUs
      cases hUs
  | cons second later ih =>
      intro p ts first h
      obtain ⟨hMentions, hLinked⟩ := List.isChain_cons_cons.mp h.linked
      obtain ⟨value, us, hGet, hValue, hStands⟩ := hMentions
      have hNew := (h.live first (by simp)).2
      refine .through h.stands (get?_live_eq_some_iff.mpr ⟨hNew, hGet⟩) fun us' hUs => ?_
      obtain rfl : us = us' := Except.ok.inj (hValue.symm.trans hUs)
      refine ih ⟨hStands, hLinked, fun name hName => ?_, ?_⟩
      · exact h.live name (List.mem_cons_of_mem _ hName)
      · simpa using h.unreadable

theorem exists_chain_of_leadsToUnreadable {visited : List String} {p : Position}
    {ts : List Token} (h : LeadsToUnreadable (aliases.filterKeys (· ∉ visited)) p ts) :
    ∃ first later, UnreadableChain aliases visited p ts first later := by
  induction h with
  | @through p ts name value hName hGet _ ih =>
      obtain ⟨hNew, hAlias⟩ := get?_live_eq_some_iff.mp hGet
      have hLive : aliases.contains name = true ∧ name ∉ visited :=
        ⟨by simp [Table.contains, hAlias], hNew⟩
      cases hValue : tokenize value with
      | error e =>
          exact ⟨name, [], hName, .singleton name, List.forall_mem_singleton.mpr hLive,
            name, rfl, value, e, hAlias, hValue⟩
      | ok us =>
          obtain ⟨first, later, hChain⟩ := ih us hValue
          refine ⟨name, first :: later, hName, ?_, ?_, ?_⟩
          · exact .cons_cons ⟨value, us, hAlias, hValue, hChain.stands⟩ hChain.linked
          · exact List.forall_mem_cons.mpr ⟨hLive, hChain.live⟩
          · simpa using hChain.unreadable

/--
**Expansion ends, and fails where a chain leads to a value that cannot be read.** With any
table and any names set aside, tokens have a run, and every run of them gives the answer of
the expansion. The names along each chain of replacements of a run are different and not set
aside, and there are not more of them than the table has aliases. The expansion fails exactly
if there is a chain of names, with repetitions or without, that are not set aside and lead
from a word where a command name stands to a value that cannot be split into tokens.
-/
theorem expandAliases_chains (aliases : Table String String) (visited : List String)
    (ts : List Token) :
    (∃ chains, Runs aliases visited .command ts chains (expandAliasesExcept visited aliases ts)) ∧
    (∀ chains answer, Runs aliases visited .command ts chains answer →
      answer = expandAliasesExcept visited aliases ts ∧
      ∀ chain ∈ chains, chain.Nodup ∧ (∀ name ∈ chain, name ∉ visited) ∧
        chain.length ≤ aliases.size) ∧
    ((∃ e, expandAliasesExcept visited aliases ts = .error e) ↔
      ∃ first later, UnreadableChain aliases visited .command ts first later) := by
  refine ⟨?_, fun chains answer hRuns => ⟨hRuns.expandLive_eq.symm, fun chain hChain => ?_⟩, ?_⟩
  · obtain ⟨chains, answer, hRuns⟩ := exists_runs aliases visited .command ts
    obtain rfl : expandAliasesExcept visited aliases ts = answer := hRuns.expandLive_eq
    exact ⟨chains, hRuns⟩
  · have hFresh := hRuns.freshChain chain hChain
    exact ⟨hFresh.nodup, hFresh.unvisited, hFresh.length_le⟩
  · refine exists_error_iff.trans ⟨exists_chain_of_leadsToUnreadable, ?_⟩
    rintro ⟨first, later, hChain⟩
    exact leadsToUnreadable_of_chain later hChain

/-- `a` and `b` go round in a circle, from which `c` leads out to an open quote. -/
def loopingAliases : Table String String :=
  .ofList [("a", "b x"), ("b", "echo | a ; c"), ("c", "'")]

/-- A chain may go round the circle; a run does not. -/
theorem expandAliases_chains_looping :
    (∃ chains, Runs loopingAliases [] .command [⟨.word, "a"⟩] chains
        (expandAliases loopingAliases [⟨.word, "a"⟩]) ∧ ∀ chain ∈ chains, chain.Nodup) ∧
      UnreadableChain loopingAliases [] .command [⟨.word, "a"⟩] "a" ["b", "a", "b", "c"] ∧
      ∃ e, expandAliases loopingAliases [⟨.word, "a"⟩] = .error e := by
  obtain ⟨⟨chains, hRuns⟩, hEvery, hFails⟩ := expandAliases_chains loopingAliases [] [⟨.word, "a"⟩]
  have hAB : Mentions loopingAliases "a" "b" := ⟨_, _, rfl, rfl, by decide⟩
  have hBA : Mentions loopingAliases "b" "a" := ⟨_, _, rfl, rfl, by decide⟩
  have hBC : Mentions loopingAliases "b" "c" := ⟨_, _, rfl, rfl, by decide⟩
  have hChain : UnreadableChain loopingAliases [] .command [⟨.word, "a"⟩] "a"
      ["b", "a", "b", "c"] :=
    ⟨by decide, .cons_cons hAB (.cons_cons hBA (.cons_cons hAB (.cons_cons hBC (.singleton "c")))),
      by decide, "c", rfl, _, .openQuote, rfl, rfl⟩
  have hError := hFails.mpr ⟨_, _, hChain⟩
  rw [expandAliasesExcept_nil] at hRuns hError
  exact ⟨⟨chains, hRuns, fun chain hChain => ((hEvery chains _ hRuns).2 chain hChain).1⟩, hChain,
    hError⟩

end MemShell.Token
