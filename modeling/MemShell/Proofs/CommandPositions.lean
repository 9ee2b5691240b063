import MemShell.Alias

/-!
# Where command names stand after expansion

Aliases are replaced where a command name stands, and the place is judged on the
tokens that are being read: the tokens of the line, or those of a value. What
comes out is read by others, who judge the place on the output. The two judgements
agree as long as every value leads to an argument, that is, has a text after its
last boundary. They part where a value is empty, ends with an operator or has
nothing but redirections: with `a` standing for nothing, the `b` of `a b` was read
as an argument and comes out as a command name.

An expansion that succeeds is a derivation (`Expands`), one rule for each thing
that can happen to a token. Every statement here is an induction over it:

* the position after the output is the position after the input, if all values
  that take part lead to an argument (`Expands.after_eq`);
* then no alias is left where a command name stands, if names have ranks that fall
  along values, since a name that is not live any more ranks above all names that
  are still to be met (`Expands.exhausted`);
* a value that leads to no argument does so in every expansion
  (`Expands.after_eq_command`), and then its name, written twice, is left over.

## Main results

* `expands_iff` — derivations are the expansions that succeed.
* `expands_append_iff` — the position is all that an expansion hands on.
* `expandAliases_exhausted` — when nothing is left to expand, and that no alias
  could be exempted from the condition.
-/

namespace MemShell

/-! ## Positions -/

namespace Position

/-- The position after tokens. -/
def after (p : Position) (ts : List Token) : Position :=
  ts.foldl next p

@[simp] theorem after_cons (p : Position) (t : Token) (ts : List Token) :
    p.after (t :: ts) = (p.next t).after ts :=
  rfl

theorem after_append (p : Position) (ts us : List Token) :
    p.after (ts ++ us) = (p.after ts).after us :=
  List.foldl_append

theorem next_of_isText {t : Token} (h : t.kind.isText = true) (p : Position) :
    p.next t = .argument := by
  obtain ⟨kind, value⟩ := t
  cases kind <;> first | rfl | cases h

theorem next_of_word {t : Token} (h : t.kind = .word) (p : Position) : p.next t = .argument :=
  next_of_isText (by rw [h]; rfl) p

theorem next_of_isBoundary {t : Token} (h : t.kind.isBoundary = true) (p : Position) :
    p.next t = .command :=
  if_pos h

/-- A token that does not keep the position forgets it. -/
private theorem next_eq (p : Position) (t : Token) :
    p.next t = p ∨ ∀ q : Position, q.next t = p.next t := by
  rcases Bool.eq_false_or_eq_true t.kind.isBoundary with hBoundary | hBoundary
  · exact .inr fun q => by rw [next_of_isBoundary hBoundary, next_of_isBoundary hBoundary]
  · rcases Bool.eq_false_or_eq_true t.kind.isText with hText | hText
    · exact .inr fun q => by rw [next_of_isText hText, next_of_isText hText]
    · exact .inl (by simp [next, hBoundary, hText])

/-- Tokens that lead from an argument to a command lead to it from everywhere. -/
theorem after_eq_command (ts : List Token) :
    ∀ {p : Position}, after .argument ts = .command → p.after ts = .command := by
  induction ts with
  | nil =>
      intro p h
      cases h
  | cons t ts ih =>
      intro p h
      rw [after_cons] at h ⊢
      rcases next_eq .argument t with hKept | hForgotten
      · rw [hKept] at h
        exact ih h
      · rw [hForgotten p]
        exact h

end Position

namespace Token

/-! ## Expansions as derivations -/

/-- What the aliases that are live make of tokens. -/
inductive Expands : Table String String → Position → List Token → List Token → Prop
  | nil (live : Table String String) (p : Position) : Expands live p [] []
  | keep {live : Table String String} {p : Position} {t : Token} {ts rest : List Token}
      (hKept : p = .command → t.kind = .word → live.get? t.value = none)
      (hRest : Expands live (p.next t) ts rest) : Expands live p (t :: ts) (t :: rest)
  | replace {live : Table String String} {t : Token} {value : String}
      {ts replacement expanded rest : List Token} (hWord : t.kind = .word)
      (hGet : live.get? t.value = some value) (hValue : tokenize value = .ok replacement)
      (hExpanded : Expands (live.erase t.value) .command replacement expanded)
      (hRest : Expands live .argument ts rest) :
      Expands live .command (t :: ts) (expanded ++ rest)

/-- A token is replaced or kept. -/
private theorem replaced_or_kept (live : Table String String) (p : Position) (t : Token) :
    (p = .command ∧ t.kind = .word ∧ ∃ value, live.get? t.value = some value) ∨
      (p = .command → t.kind = .word → live.get? t.value = none) := by
  by_cases hPlace : p = .command ∧ t.kind = .word
  · cases hGet : live.get? t.value with
    | none => exact .inr fun _ _ => rfl
    | some value => exact .inl ⟨hPlace.1, hPlace.2, value, rfl⟩
  · exact .inr fun hP hWord => absurd ⟨hP, hWord⟩ hPlace

theorem Expands.expandLive_eq {live : Table String String} {p : Position} {ts out : List Token}
    (h : Expands live p ts out) : expandLive live p ts = .ok out := by
  induction h with
  | nil live p => exact expandLive_nil live p
  | keep hKept _ ih =>
      rw [expandLive_cons_keep hKept, ih]
      rfl
  | replace hWord hGet hValue _ _ ihExpanded ihRest =>
      rw [expandLive_cons_of_command hWord hGet, hValue]
      simp only [bind, Except.bind, ihExpanded, ihRest]
      rfl

/-- Induction along an expansion: over the tokens, and into the values of aliases with a
table that has become smaller. -/
theorem expandInduction {motive : Table String String → Position → List Token → Prop}
    (nil : ∀ live p, motive live p [])
    (keep : ∀ live p t ts, (p = .command → t.kind = .word → live.get? t.value = none) →
      motive live (p.next t) ts → motive live p (t :: ts))
    (replace : ∀ live t value ts, t.kind = .word → live.get? t.value = some value →
      (∀ replacement, tokenize value = .ok replacement →
        motive (live.erase t.value) .command replacement) →
      motive live .argument ts → motive live .command (t :: ts))
    (live : Table String String) (p : Position) (ts : List Token) : motive live p ts := by
  match ts with
  | [] => exact nil live p
  | t :: ts =>
      rcases replaced_or_kept live p t with ⟨rfl, hWord, value, hGet⟩ | hKept
      · have hSmaller : (live.erase t.value).size < live.size := Table.size_erase_lt hGet
        exact replace live t value ts hWord hGet
          (fun replacement _ => expandInduction nil keep replace _ .command replacement)
          (expandInduction nil keep replace live .argument ts)
      · exact keep live p t ts hKept (expandInduction nil keep replace live _ ts)
termination_by (live.size, ts.length)

private theorem expands_of_expandLive (live : Table String String) (p : Position)
    (ts : List Token) :
    ∀ {out : List Token}, expandLive live p ts = .ok out → Expands live p ts out := by
  induction live, p, ts using expandInduction with
  | nil live p =>
      intro out h
      rw [expandLive_nil] at h
      cases h
      exact .nil live p
  | keep live p t ts hKept ih =>
      intro out h
      rw [expandLive_cons_keep hKept] at h
      cases hRest : expandLive live (p.next t) ts with
      | error e => simp [hRest, Except.map] at h
      | ok rest =>
          simp only [hRest, Except.map, Except.ok.injEq] at h
          subst h
          exact .keep hKept (ih hRest)
  | replace live t value ts hWord hGet ihValue ihRest =>
      intro out h
      rw [expandLive_cons_of_command hWord hGet] at h
      cases hValue : tokenize value with
      | error e => simp [hValue, bind, Except.bind] at h
      | ok replacement =>
          cases hExpanded : expandLive (live.erase t.value) .command replacement with
          | error e => simp [hValue, hExpanded, bind, Except.bind] at h
          | ok expanded =>
              cases hRest : expandLive live .argument ts with
              | error e => simp [hValue, hExpanded, hRest, bind, Except.bind] at h
              | ok rest =>
                  simp only [hValue, hExpanded, hRest, bind, Except.bind, pure, Except.pure,
                    Except.ok.injEq] at h
                  subst h
                  exact .replace hWord hGet hValue (ihValue replacement hValue hExpanded)
                    (ihRest hRest)

/-- **Derivations** are the expansions that succeed. -/
theorem expands_iff {live : Table String String} {p : Position} {ts out : List Token} :
    Expands live p ts out ↔ expandLive live p ts = .ok out :=
  ⟨Expands.expandLive_eq, expands_of_expandLive live p ts⟩

/-- **The position is all that is handed on**: tokens are expanded as those before them leave
the position, whatever became of those. -/
theorem expands_append_iff {live : Table String String} {us : List Token} (ts : List Token) :
    ∀ {p : Position} {out : List Token}, Expands live p (ts ++ us) out ↔
      ∃ first rest, Expands live p ts first ∧ Expands live (p.after ts) us rest ∧
        out = first ++ rest := by
  induction ts with
  | nil =>
      intro p out
      constructor
      · intro h
        exact ⟨[], out, .nil live p, h, rfl⟩
      · rintro ⟨first, rest, hFirst, hRest, rfl⟩
        cases hFirst
        exact hRest
  | cons t ts ih =>
      intro p out
      constructor
      · intro h
        cases h with
        | keep hKept hRest =>
            obtain ⟨first, rest, hFirst, hLater, rfl⟩ := ih.mp hRest
            exact ⟨t :: first, rest, .keep hKept hFirst, hLater, rfl⟩
        | @replace _ _ _ _ _ expanded _ hWord hGet hValue hExpanded hRest =>
            obtain ⟨first, rest, hFirst, hLater, rfl⟩ := ih.mp hRest
            -- a replaced token is a word, so it too leads to an argument
            refine ⟨expanded ++ first, rest, .replace hWord hGet hValue hExpanded hFirst, ?_, ?_⟩
            · rw [Position.after_cons, Position.next_of_word hWord]
              exact hLater
            · rw [List.append_assoc]
      · rintro ⟨first, rest, hFirst, hLater, rfl⟩
        cases hFirst with
        | keep hKept hFirst => exact .keep hKept (ih.mpr ⟨_, rest, hFirst, hLater, rfl⟩)
        | replace hWord hGet hValue hExpanded hFirst =>
            rw [Position.after_cons, Position.next_of_word hWord] at hLater
            rw [List.append_assoc]
            exact .replace hWord hGet hValue hExpanded (ih.mpr ⟨_, rest, hFirst, hLater, rfl⟩)

/-! ## Names of commands -/

/-- The words that stand where a command name stands. -/
def commandWords : Position → List Token → List String
  | _, [] => []
  | p, t :: ts =>
      if p = .command ∧ t.kind = .word then t.value :: commandWords (p.next t) ts
      else commandWords (p.next t) ts

theorem commandWords_append {us : List Token} (ts : List Token) :
    ∀ {p : Position},
      commandWords p (ts ++ us) = commandWords p ts ++ commandWords (p.after ts) us := by
  induction ts with
  | nil =>
      intro p
      rfl
  | cons t ts ih =>
      intro p
      rw [List.cons_append, commandWords, commandWords, ih, Position.after_cons]
      split <;> rfl

theorem mem_commandWords_cons {p : Position} {t : Token} {ts : List Token} {name : String}
    (h : name ∈ commandWords (p.next t) ts) : name ∈ commandWords p (t :: ts) := by
  rw [commandWords]
  split
  · exact List.mem_cons_of_mem _ h
  · exact h

theorem exists_of_mem_commandWords {name : String} (ts : List Token) :
    ∀ {p : Position}, name ∈ commandWords p ts → ∃ t ∈ ts, t.kind = .word ∧ t.value = name := by
  induction ts with
  | nil =>
      intro p h
      cases h
  | cons t ts ih =>
      intro p h
      rw [commandWords] at h
      split at h
      · rename_i hPlace
        rcases List.mem_cons.mp h with rfl | h
        · exact ⟨t, by simp, hPlace.2, rfl⟩
        · obtain ⟨u, hu, hWord⟩ := ih h
          exact ⟨u, by simp [hu], hWord⟩
      · obtain ⟨u, hu, hWord⟩ := ih h
        exact ⟨u, by simp [hu], hWord⟩

/-! ## Tables of aliases -/

/-- Every value can be split into tokens. -/
def Readable (aliases : Table String String) : Prop :=
  ∀ name value, aliases.get? name = some value → ∃ ts, tokenize value = .ok ts

/-- Names have ranks that fall along values: the names of aliases among the words of a value
rank below the alias that has the value. -/
def Acyclic (aliases : Table String String) : Prop :=
  ∃ rank : String → Nat, ∀ name value ts, aliases.get? name = some value →
    tokenize value = .ok ts → ∀ t ∈ ts, t.kind = .word → aliases.contains t.value = true →
      rank t.value < rank name

/-- After the tokens of a value, read from the start of a command, an argument comes: the
value has a text after its last boundary. -/
def LeadsToArgument (value : String) : Prop :=
  ∀ ts, tokenize value = .ok ts → Position.after .command ts = .argument

instance (value : String) : Decidable (LeadsToArgument value) :=
  match h : tokenize value with
  | .error e => .isTrue fun ts hTs => by rw [h] at hTs; cases hTs
  | .ok ts => decidable_of_iff (Position.after .command ts = .argument)
      ⟨fun hAfter us hUs => by rw [h] at hUs; cases hUs; exact hAfter, fun hAll => hAll ts h⟩

theorem readable_of_entries {aliases : Table String String}
    (h : ∀ e ∈ aliases.entries, (tokenize e.2).isOk = true) : Readable aliases := by
  intro name value hGet
  have hOk := h _ (Table.mem_entries_of_get? hGet)
  cases hValue : tokenize value with
  | error e => simp [hValue, Except.isOk, Except.toBool] at hOk
  | ok ts => exact ⟨ts, rfl⟩

theorem acyclic_of_entries {aliases : Table String String} (rank : String → Nat)
    (h : ∀ e ∈ aliases.entries, ∀ t ∈ (tokenize e.2).toOption.getD [], t.kind = .word →
      aliases.contains t.value = true → rank t.value < rank e.1) : Acyclic aliases := by
  refine ⟨rank, fun name value ts hGet hValue t ht => ?_⟩
  refine h _ (Table.mem_entries_of_get? hGet) t ?_
  simpa [hValue, Except.toOption] using ht

/-- The aliases that tokens use, where a command name stands or in the values of such. -/
inductive Uses (aliases : Table String String) : List Token → String → Prop
  | word {ts : List Token} {name : String} (hName : name ∈ commandWords .command ts)
      (hAlias : aliases.contains name = true) : Uses aliases ts name
  | value {ts us : List Token} {name inner value : String}
      (hName : name ∈ commandWords .command ts) (hGet : aliases.get? name = some value)
      (hValue : tokenize value = .ok us) (hInner : Uses aliases us inner) :
      Uses aliases ts inner

/-- No word where a command name stands is the name of an alias. -/
def Exhausted (aliases : Table String String) (p : Position) (ts : List Token) : Prop :=
  ∀ name ∈ commandWords p ts, aliases.get? name = none

instance (aliases : Table String String) (p : Position) (ts : List Token) :
    Decidable (Exhausted aliases p ts) :=
  inferInstanceAs (Decidable (∀ name ∈ commandWords p ts, aliases.get? name = none))

private theorem exhausted_append {aliases : Table String String} {p : Position}
    {ts us : List Token} (h : Exhausted aliases p ts)
    (h' : Exhausted aliases (p.after ts) us) : Exhausted aliases p (ts ++ us) := by
  intro name hName
  rw [commandWords_append] at hName
  rcases List.mem_append.mp hName with hName | hName
  · exact h name hName
  · exact h' name hName

/-- Where nothing is left to expand, expansion changes nothing. -/
theorem expands_of_exhausted {aliases : Table String String} (ts : List Token) :
    ∀ {p : Position}, Exhausted aliases p ts → Expands aliases p ts ts := by
  induction ts with
  | nil =>
      intro p _
      exact .nil aliases p
  | cons t ts ih =>
      intro p h
      refine .keep (fun hCommand hWord => h t.value ?_) (ih fun name hName => ?_)
      · simp [commandWords, hCommand, hWord]
      · exact h name (mem_commandWords_cons hName)

/-- Aliases that are live, of a table. -/
def Within (live aliases : Table String String) : Prop :=
  ∀ name value, live.get? name = some value → aliases.get? name = some value

theorem Within.erase {live aliases : Table String String} (h : Within live aliases)
    (name : String) : Within (live.erase name) aliases := by
  intro key value hGet
  rw [Table.get?_erase] at hGet
  split at hGet
  · cases hGet
  · exact h key value hGet

/-- With values that can be read every expansion succeeds. -/
theorem exists_expands {aliases : Table String String} (hReadable : Readable aliases)
    (live : Table String String) (p : Position) (ts : List Token) :
    Within live aliases → ∃ out, Expands live p ts out := by
  induction live, p, ts using expandInduction with
  | nil live p =>
      intro _
      exact ⟨[], .nil live p⟩
  | keep live p t ts hKept ih =>
      intro hWithin
      obtain ⟨rest, hRest⟩ := ih hWithin
      exact ⟨t :: rest, .keep hKept hRest⟩
  | replace live t value ts hWord hGet ihValue ihRest =>
      intro hWithin
      obtain ⟨replacement, hValue⟩ := hReadable t.value value (hWithin _ _ hGet)
      obtain ⟨expanded, hExpanded⟩ := ihValue replacement hValue (hWithin.erase t.value)
      obtain ⟨rest, hRest⟩ := ihRest hWithin
      exact ⟨expanded ++ rest, .replace hWord hGet hValue hExpanded hRest⟩

/-! ## Positions after expansion -/

section Positions

variable {aliases : Table String String} {names : String → Prop}

/-- The aliases among the words where a command name stands are all of a kind. -/
def NamesAre (names : String → Prop) (aliases : Table String String) (p : Position)
    (ts : List Token) : Prop :=
  ∀ name ∈ commandWords p ts, aliases.contains name = true → names name

/-- Names whose values lead to arguments and use such names only. -/
def Grounded (names : String → Prop) (aliases : Table String String) : Prop :=
  ∀ name value, names name → aliases.get? name = some value →
    LeadsToArgument value ∧ ∀ ts, tokenize value = .ok ts → NamesAre names aliases .command ts

private theorem NamesAre.tail {p : Position} {t : Token} {ts : List Token}
    (h : NamesAre names aliases p (t :: ts)) : NamesAre names aliases (p.next t) ts :=
  fun name hName => h name (mem_commandWords_cons hName)

theorem mem_commandWords_replaced {t : Token} (hWord : t.kind = .word)
    (ts : List Token) : t.value ∈ commandWords .command (t :: ts) := by
  simp [commandWords, hWord]

private theorem contains_of_get? {name value : String} (h : aliases.get? name = some value) :
    aliases.contains name = true := by
  simp [Table.contains, h]

/-- **Expansion keeps positions** if the values of all names that take part lead to
arguments. -/
theorem Expands.after_eq (hGrounded : Grounded names aliases) {live : Table String String}
    {p : Position} {ts out : List Token} (h : Expands live p ts out) :
    Within live aliases → NamesAre names aliases p ts → p.after out = p.after ts := by
  induction h with
  | nil live p =>
      intro _ _
      rfl
  | keep _ _ ih =>
      intro hWithin hNames
      exact ih hWithin hNames.tail
  | @replace live t value ts replacement expanded rest hWord hGet hValue _ _ ihExpanded ihRest =>
      intro hWithin hNames
      have hAlias := hWithin _ _ hGet
      have hName := hNames t.value (mem_commandWords_replaced hWord ts) (contains_of_get? hAlias)
      obtain ⟨hLeads, hInner⟩ := hGrounded t.value value hName hAlias
      have hExpanded : Position.after .command expanded = .argument := by
        rw [ihExpanded (hWithin.erase t.value) (hInner replacement hValue)]
        exact hLeads replacement hValue
      have hTail := hNames.tail
      rw [Position.next_of_word hWord] at hTail
      rw [Position.after_append, hExpanded, Position.after_cons, Position.next_of_word hWord]
      exact ihRest hWithin hTail

/-- **No alias is left where a command name stands.** The names that are not live any more
rank above all names that are still to be met. -/
theorem Expands.exhausted {rank : String → Nat}
    (hRank : ∀ name value ts, aliases.get? name = some value → tokenize value = .ok ts →
      NamesAre (rank · < rank name) aliases .command ts)
    (hGrounded : Grounded names aliases) {live : Table String String} {p : Position}
    {ts out : List Token} (h : Expands live p ts out) :
    Within live aliases → NamesAre names aliases p ts →
      NamesAre (fun name => ∀ key, rank key ≤ rank name → live.get? key = aliases.get? key)
        aliases p ts →
      Exhausted aliases p out := by
  induction h with
  | nil live p =>
      intro _ _ _ name hName
      cases hName
  | @keep live p t ts rest hKept hRest ih =>
      intro hWithin hNames hLive name hName
      have hLater := ih hWithin hNames.tail hLive.tail
      rw [commandWords] at hName
      split at hName
      · rename_i hPlace
        rcases List.mem_cons.mp hName with rfl | hName
        · cases hGet : aliases.get? t.value with
          | none => rfl
          | some value =>
              have hMem : t.value ∈ commandWords p (t :: ts) := by
                simp [commandWords, hPlace]
              have hSame := hLive t.value hMem (contains_of_get? hGet) t.value (Nat.le_refl _)
              rw [hKept hPlace.1 hPlace.2, hGet] at hSame
              cases hSame
        · exact hLater name hName
      · exact hLater name hName
  | @replace live t value ts replacement expanded rest hWord hGet hValue hExpanded _ ihExpanded
      ihRest =>
      intro hWithin hNames hLive
      have hAlias := hWithin _ _ hGet
      have hMem := mem_commandWords_replaced hWord ts
      obtain ⟨hLeads, hInnerNames⟩ :=
        hGrounded t.value value (hNames _ hMem (contains_of_get? hAlias)) hAlias
      have hInner : Exhausted aliases .command expanded := by
        refine ihExpanded (hWithin.erase t.value) (hInnerNames replacement hValue) ?_
        intro name hName hNameAlias key hKey
        have hLower : rank key < rank t.value :=
          Nat.lt_of_le_of_lt hKey (hRank _ value replacement hAlias hValue name hName hNameAlias)
        have hOther : key ≠ t.value := by
          rintro rfl
          exact Nat.lt_irrefl _ hLower
        rw [Table.get?_erase, if_neg hOther]
        exact hLive _ hMem (contains_of_get? hAlias) key (Nat.le_of_lt hLower)
      have hAfter : Position.after .command expanded = .argument := by
        rw [hExpanded.after_eq hGrounded (hWithin.erase t.value) (hInnerNames replacement hValue)]
        exact hLeads replacement hValue
      have hTail := hNames.tail
      have hLiveTail := hLive.tail
      rw [Position.next_of_word hWord] at hTail hLiveTail
      refine exhausted_append hInner ?_
      rw [hAfter]
      exact ihRest hWithin hTail hLiveTail

/-- Where the tokens lead to a command, so does every expansion of them: after the last
boundary there is no word to replace. -/
theorem Expands.after_eq_command {live : Table String String} {p : Position}
    {ts out : List Token} (h : Expands live p ts out) :
    p.after ts = .command → p.after out = .command := by
  induction h with
  | nil live p => exact id
  | keep _ _ ih => exact ih
  | replace hWord _ _ _ _ _ ihRest =>
      intro hAfter
      rw [Position.after_cons, Position.next_of_word hWord] at hAfter
      rw [Position.after_append]
      exact Position.after_eq_command _ (ihRest hAfter)

end Positions

/-! ## What is left to expand -/

/-- Written twice, a name whose value leads to no argument is left over. -/
private theorem not_exhausted_twice {aliases : Table String String} (hReadable : Readable aliases)
    {name value : String} (hGet : aliases.get? name = some value)
    (hLeads : ¬ LeadsToArgument value) :
    ∃ out, Expands aliases .command [⟨.word, name⟩, ⟨.word, name⟩] out ∧
      ¬ Exhausted aliases .command out := by
  obtain ⟨ts, hValue⟩ := hReadable name value hGet
  have hCommand : Position.after .command ts = .command := by
    cases hAfter : Position.after .command ts with
    | command => rfl
    | argument =>
        refine absurd (fun us hUs => ?_) hLeads
        rw [hValue] at hUs
        cases hUs
        exact hAfter
  have hWithin : Within (aliases.erase name) aliases := Within.erase (fun _ _ hKey => hKey) name
  obtain ⟨expanded, hExpanded⟩ := exists_expands hReadable _ .command ts hWithin
  have hSecond : Expands aliases .argument [⟨.word, name⟩] [⟨.word, name⟩] :=
    .keep (fun h => by cases h) (.nil _ _)
  refine ⟨expanded ++ [⟨.word, name⟩], .replace rfl hGet hValue hExpanded hSecond, ?_⟩
  intro hExhausted
  have hNone : aliases.get? name = none := by
    apply hExhausted
    rw [commandWords_append, hExpanded.after_eq_command hCommand]
    simp [commandWords]
  rw [hGet] at hNone
  cases hNone

/-- The aliases that tokens use are grounded if their values lead to arguments. -/
private theorem grounded_uses {aliases : Table String String} {ts : List Token}
    (hLeads : ∀ name value, Uses aliases ts name → aliases.get? name = some value →
      LeadsToArgument value) :
    Grounded (Uses aliases ts) aliases := by
  have hTrans : ∀ {us : List Token} {name inner value : String}, Uses aliases us name →
      aliases.get? name = some value →
      (∀ vs, tokenize value = .ok vs → inner ∈ commandWords .command vs →
        aliases.contains inner = true → Uses aliases us inner) := by
    intro us name inner value hUses
    induction hUses with
    | word hName _ =>
        intro hGet vs hValue hInner hAlias
        exact .value hName hGet hValue (.word hInner hAlias)
    | value hName hGet hValue _ ih =>
        intro hGet' vs hValue' hInner hAlias
        exact .value hName hGet hValue (ih hGet' vs hValue' hInner hAlias)
  intro name value hUses hGet
  refine ⟨hLeads name value hUses hGet, fun us hValue inner hInner hAlias => ?_⟩
  exact hTrans hUses hGet us hValue hInner hAlias

/--
**When expansion is complete.** Let every value be readable and let names rank above the
names in their values. Tokens that use only aliases whose values lead to arguments are
expanded to tokens with no alias left where a command name stands, which expanding once
more does not change. No alias could be exempted: one whose value leads to no argument
is left over when its name is written twice.
-/
theorem expandAliases_exhausted {aliases : Table String String}
    (hReadable : Readable aliases) (hAcyclic : Acyclic aliases) :
    (∀ ts, (∀ name value, Uses aliases ts name → aliases.get? name = some value →
        LeadsToArgument value) →
      ∃ out, expandAliases aliases ts = .ok out ∧ Exhausted aliases .command out ∧
        expandAliases aliases out = .ok out) ∧
    ∀ name value, aliases.get? name = some value → ¬ LeadsToArgument value →
      ∃ out, expandAliases aliases [⟨.word, name⟩, ⟨.word, name⟩] = .ok out ∧
        ¬ Exhausted aliases .command out := by
  refine ⟨fun ts hLeads => ?_, fun name value hGet hLeads => ?_⟩
  · obtain ⟨rank, hRank⟩ := hAcyclic
    have hFalls : ∀ name value us, aliases.get? name = some value → tokenize value = .ok us →
        NamesAre (rank · < rank name) aliases .command us := by
      intro name value us hGet hValue inner hInner hAlias
      obtain ⟨t, ht, hWord, rfl⟩ := exists_of_mem_commandWords us hInner
      exact hRank name value us hGet hValue t ht hWord hAlias
    have hWithin : Within aliases aliases := fun _ _ hGet => hGet
    obtain ⟨out, hOut⟩ := exists_expands hReadable aliases .command ts hWithin
    have hExhausted : Exhausted aliases .command out :=
      hOut.exhausted hFalls (grounded_uses hLeads) hWithin (fun _ hName => .word hName)
        fun _ _ _ _ _ => rfl
    exact ⟨out, hOut.expandLive_eq, hExhausted,
      (expands_of_exhausted out hExhausted).expandLive_eq⟩
  · obtain ⟨out, hOut, hLeft⟩ := not_exhausted_twice hReadable hGet hLeads
    exact ⟨out, hOut.expandLive_eq, hLeft⟩

/-- Aliases that use each other, with operators and a redirection in their values. -/
def layeredAliases : Table String String :=
  .ofList [("ll", "ls -l"), ("l", "ll | wc && > ll echo 'a'"), ("both", "l x ; ll ")]

/-- `a` stands for nothing. -/
def emptyAlias : Table String String :=
  .ofList [("a", ""), ("b", "echo")]

theorem expandAliases_exhausted_layered :
    (Readable layeredAliases ∧ Acyclic layeredAliases ∧
      ∀ ts, ∃ out, expandAliases layeredAliases ts = .ok out ∧
        Exhausted layeredAliases .command out ∧ expandAliases layeredAliases out = .ok out) ∧
    Readable emptyAlias ∧ Acyclic emptyAlias ∧ ¬ LeadsToArgument "" ∧
      ∃ out, expandAliases emptyAlias [⟨.word, "a"⟩, ⟨.word, "a"⟩] = .ok out ∧
        ¬ Exhausted emptyAlias .command out := by
  have hReadable : Readable layeredAliases := readable_of_entries (by decide)
  have hAcyclic : Acyclic layeredAliases :=
    acyclic_of_entries (fun name => if name = "both" then 2 else if name = "l" then 1 else 0)
      (by decide)
  have hLeads : ∀ e ∈ layeredAliases.entries, LeadsToArgument e.2 := by decide
  have hReadable' : Readable emptyAlias := readable_of_entries (by decide)
  have hAcyclic' : Acyclic emptyAlias := acyclic_of_entries (fun _ => 0) (by decide)
  refine ⟨⟨hReadable, hAcyclic, fun ts => ?_⟩, hReadable', hAcyclic', by decide, ?_⟩
  · exact (expandAliases_exhausted hReadable hAcyclic).1 ts fun name value _ hGet =>
      hLeads _ (Table.mem_entries_of_get? hGet)
  · exact (expandAliases_exhausted hReadable' hAcyclic').2 "a" "" rfl (by decide)

/-- The `b` of `a b` is read as an argument and comes out where a command name stands. -/
theorem not_exhausted_emptyAlias :
    Readable emptyAlias ∧ Acyclic emptyAlias ∧
      expandAliases emptyAlias [⟨.word, "a"⟩, ⟨.word, "b"⟩] = .ok [⟨.word, "b"⟩] ∧
      ¬ Exhausted emptyAlias .command [⟨.word, "b"⟩] ∧
      expandAliases emptyAlias [⟨.word, "b"⟩] = .ok [⟨.word, "echo"⟩] := by
  have hArgument : Expands emptyAlias .argument [⟨.word, "b"⟩] [⟨.word, "b"⟩] :=
    .keep (by decide) (.nil _ _)
  have hFirst : Expands emptyAlias .command [⟨.word, "a"⟩, ⟨.word, "b"⟩] ([] ++ [⟨.word, "b"⟩]) :=
    .replace rfl rfl rfl (.nil _ _) hArgument
  have hEcho : Expands (emptyAlias.erase "b") .command [⟨.word, "echo"⟩] [⟨.word, "echo"⟩] :=
    .keep (by decide) (.nil _ _)
  have hSecond : Expands emptyAlias .command [⟨.word, "b"⟩] ([⟨.word, "echo"⟩] ++ []) :=
    .replace rfl rfl rfl hEcho (.nil _ _)
  exact ⟨readable_of_entries (by decide), acyclic_of_entries (fun _ => 0) (by decide),
    hFirst.expandLive_eq, by decide, hSecond.expandLive_eq⟩

end Token

end MemShell
