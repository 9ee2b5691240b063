import MemShell.Proofs.AliasChains
import MemShell.Proofs.CutReading
import MemShell.Proofs.JoinedLines
import MemShell.Proofs.SessionSteps
import MemShell.Proofs.TextPieces

/-!
# Lines that are refused

A line is read to its end before anything of it runs. So a mistake anywhere in it, in the
last command or in the value of an alias that only an alias leads to, keeps all of it from
running, and what is left of the line is a message and a status.

That a refused line does nothing is plain, since there is no tree to run. What takes an
argument is which lines are refused. The reading stops at the first mistake that it meets,
in the order of its passes; here the mistakes are told by where they stand, without that
order (`Flaw`). An alias may be reached by many ways, and a part may be broken in itself or
only because of the semicolon behind it. The two views are tied together in both directions:
what the reading complains of is one of the flaws (`flaw_of_parse`), and with a flaw
anywhere it does complain (`Flaw.exists_parse_error`), though perhaps of another one.

## Main results

* `Token.unreadable_of_expandAliases` — the value at which an expansion fails is reached.
* `Token.expandVariablesList_eq_error_iff` — one open reference is enough.
* `Tree.exists_build_error_iff` — a line is refused if one of its parts is.
* `evaluate_flawed` — a flawed line runs nothing and changes nothing but the status.
-/

namespace MemShell

namespace Token

/-! ## Values of aliases -/

/-- The aliases that tokens lead to: those where a command name stands, and those where a
command name stands in the value of one that is reached. -/
def Reaches (aliases : Table String String) (p : Position) (ts : List Token) (name : String) :
    Prop :=
  ∃ first ∈ commandWords p ts, Relation.ReflTransGen (Mentions aliases) first name

/-- An alias that is reached and whose value cannot be split into tokens. -/
structure Unreadable (aliases : Table String String) (p : Position) (ts : List Token)
    (name value : String) (e : LexError) : Prop where
  reached : Reaches aliases p ts name
  isValue : aliases.get? name = some value
  refused : tokenize value = .error e

section Values

variable {aliases : Table String String} {p : Position} {t : Token} {ts us : List Token}
  {name value : String} {e : LexError}

theorem Unreadable.of_tail (h : Unreadable aliases (p.next t) ts name value e) :
    Unreadable aliases p (t :: ts) name value e := by
  obtain ⟨first, hFirst, hLeads⟩ := h.reached
  exact ⟨⟨first, mem_commandWords_cons hFirst, hLeads⟩, h.isValue, h.refused⟩

/-- What the value of a first word reaches is reached from the word. -/
theorem Unreadable.of_value {inner : String} (hWord : t.kind = .word)
    (hGet : aliases.get? t.value = some inner) (hInner : tokenize inner = .ok us)
    (h : Unreadable aliases .command us name value e) :
    Unreadable aliases .command (t :: ts) name value e := by
  obtain ⟨first, hFirst, hLeads⟩ := h.reached
  have hMentions : Mentions aliases t.value first := ⟨inner, us, hGet, hInner, hFirst⟩
  exact ⟨⟨t.value, mem_commandWords_replaced hWord ts, hLeads.head hMentions⟩, h.isValue,
    h.refused⟩

/-- A run that fails comes to a value that cannot be read, and fails as its reading does. -/
theorem Runs.exists_unreadable {visited : List String} {chains : List (List String)}
    {answer : Except LexError (List Token)} (h : Runs aliases visited p ts chains answer) :
    ∀ {e : LexError}, answer = .error e → ∃ name value, Unreadable aliases p ts name value e := by
  induction h with
  | done visited p =>
      intro e hError
      cases hError
  | @kept _ _ _ _ _ answer _ _ ih =>
      intro e hError
      cases answer with
      | error e' =>
          cases hError
          obtain ⟨name, value, hLater⟩ := ih rfl
          exact ⟨name, value, hLater.of_tail⟩
      | ok out => cases hError
  | @unreadable _ t ts value e' hWord hGet _ hValue =>
      intro e hError
      cases hError
      have hReached : Reaches aliases .command (t :: ts) t.value :=
        ⟨t.value, mem_commandWords_replaced hWord ts, .refl⟩
      exact ⟨t.value, value, hReached, hGet, hValue⟩
  | failed hWord hGet _ hValue _ ih =>
      intro e hError
      obtain ⟨name, value, hInner⟩ := ih hError
      exact ⟨name, value, hInner.of_value hWord hGet hValue⟩
  | @replaced _ t _ _ _ _ _ _ answer hWord _ _ _ _ _ _ ih =>
      intro e hError
      cases answer with
      | error e' =>
          cases hError
          obtain ⟨name, value, hLater⟩ := ih rfl
          rw [← Position.next_of_word hWord .command] at hLater
          exact ⟨name, value, hLater.of_tail⟩
      | ok out => cases hError

/-- **An expansion fails** at the value of an alias that is reached. -/
theorem unreadable_of_expandAliases (h : expandAliases aliases ts = .error e) :
    ∃ name value, Unreadable aliases .command ts name value e := by
  obtain ⟨chains, answer, hRuns⟩ := exists_runs aliases [] .command ts
  have hAnswer : expandAliasesExcept [] aliases ts = answer := hRuns.expandLive_eq
  rw [expandAliasesExcept_nil, h] at hAnswer
  exact hRuns.exists_unreadable hAnswer.symm

/-- Whatever the way to it, the value of an alias that is reached makes the expansion fail. -/
theorem Unreadable.exists_error (h : Unreadable aliases .command ts name value e) :
    ∃ e', expandAliases aliases ts = .error e' := by
  obtain ⟨first, hFirst, hLeads⟩ := h.reached
  refine exists_error_iff.mpr ?_
  -- along the way from the last name back to the first
  induction hLeads using Relation.ReflTransGen.head_induction_on generalizing ts with
  | refl =>
      refine .through hFirst h.isValue fun us hUs => ?_
      rw [h.refused] at hUs
      cases hUs
  | head hMentions hLater ih =>
      obtain ⟨inner, us, hGet, hInner, hStands⟩ := hMentions
      refine .through hFirst hGet fun us' hUs' => ?_
      obtain rfl : us = us' := Except.ok.inj (hInner.symm.trans hUs')
      exact ih ⟨⟨_, hStands, hLater⟩, h.isValue, h.refused⟩ hStands

end Values

/-! ## References -/

/-- A token whose references are filled in, with one that is not closed. -/
def HasOpenReference (t : Token) : Prop :=
  (t.kind = .word ∨ t.kind = .doubleQuoted) ∧ Piece.HasOpenReference t.value.toList

section References

variable {env : Table String String} {t : Token} {ts : List Token} {e : LineError}

theorem expandVariables_eq_error_iff :
    t.expandVariables env = .error e ↔ e = .openReference ∧ t.HasOpenReference := by
  have hText : expandText env t.value = .error e ↔
      e = .openReference ∧ Piece.HasOpenReference t.value.toList := by
    rcases Piece.reads_or_open t.value.toList with ⟨ps, hReads⟩ | ⟨hOpen, hRun⟩
    · simp [expandText_of_reads hReads, hReads.not_hasOpenReference]
    · simp [expandText_of_run hRun, hOpen, eq_comm]
  have hFilled : ∀ kind, (expandText env t.value).map (Token.mk kind) = .error e ↔
      expandText env t.value = .error e := by
    intro kind
    cases expandText env t.value <;> simp [Except.map]
  unfold HasOpenReference expandVariables
  cases hKind : t.kind <;> simp [hFilled, hText]

/-- **One open reference is enough** for tokens to be refused, wherever it stands. -/
theorem expandVariablesList_eq_error_iff :
    expandVariablesList env ts = .error e ↔
      e = .openReference ∧ ∃ t ∈ ts, t.HasOpenReference := by
  induction ts with
  | nil => simp [expandVariablesList, pure, Except.pure]
  | cons t ts ih =>
      have hCons : expandVariablesList env (t :: ts) = (do
          let first ← t.expandVariables env
          let rest ← expandVariablesList env ts
          pure (first :: rest)) := List.mapM_cons
      cases hOne : t.expandVariables env with
      | error e' =>
          have hHas : e' = .openReference ∧ t.HasOpenReference :=
            expandVariables_eq_error_iff.mp hOne
          simp [hCons, hOne, bind, Except.bind, hHas.1, hHas.2, eq_comm]
      | ok first =>
          have hNot : ¬ t.HasOpenReference := fun hOpen => by
            rw [expandVariables_eq_error_iff.mpr ⟨rfl, hOpen⟩] at hOne
            cases hOne
          simp only [List.exists_mem_cons_iff, hNot, false_or, ← ih]
          rw [hCons, hOne]
          cases expandVariablesList env ts <;> simp [bind, Except.bind, pure, Except.pure]

end References

end Token

/-! ## Parts between semicolons -/

namespace Tree

open Parse Token

/-- A part of a line that is refused, by itself or for not being complete where the semicolon
after it stands. -/
inductive RefusedPart (ts : List Token) (e : ParseError) : Prop
  | alone (part : List Token) (hPart : part ∈ ts.splitOnP Cut.isSemicolon)
      (hRefused : build part = .error e)
  | ended (part : List Token) (hPart : part ∈ (ts.splitOnP Cut.isSemicolon).dropLast)
      (hRefused : build (part ++ [semicolon]) = .error e)

section Parts

variable {xs ys : List Token} {mark : Token} {e : ParseError}

/-- To the reader one semicolon is as good as another. -/
theorem step_of_isSemicolon (hMark : Cut.isSemicolon mark = true) (m : Mode) :
    reader.step m mark = reader.step m semicolon := by
  obtain ⟨kind, value⟩ := mark
  obtain rfl : kind = .semicolon := by simpa [Cut.isSemicolon] using hMark
  cases m <;> rfl

/-- Where a line is cut at a semicolon, its two sides are read one after the other. -/
theorem build_cut (hMark : Cut.isSemicolon mark = true) (xs ys : List Token) :
    build (xs ++ mark :: ys) =
      build (xs ++ [semicolon]) >>= fun first => (build ys).map (first ++ ·) := by
  have hKind : semicolon.kind = .semicolon := rfl
  have hSame : build (xs ++ mark :: ys) = build (xs ++ [semicolon] ++ ys) := by
    unfold build
    rw [Transducer.run_append, List.append_assoc, Transducer.run_append]
    cases reader.feed .fresh xs with
    | error e => rfl
    | ok p => simp only [List.singleton_append, Transducer.run, step_of_isSemicolon hMark]
  rw [hSame]
  cases hFeed : reader.feed .fresh (xs ++ [semicolon]) with
  | error e =>
      have hEnds := reader.run_append .fresh (xs ++ [semicolon]) []
      rw [List.append_nil, hFeed] at hEnds
      unfold build
      rw [hEnds, Transducer.run_append, hFeed]
      rfl
  | ok p =>
      obtain ⟨out, m⟩ := p
      obtain rfl : m = .fresh := (feed_eq_fresh_iff hFeed).mpr hKind
      have hEnds : build (xs ++ [semicolon]) = .ok out := by
        refine (Transducer.run_of_feed hFeed).trans ?_
        simp [reader, finish, Except.map]
      rw [hEnds, build, Transducer.run_append_of_feed hFeed]
      rfl

/-- Where the line may not end, no semicolon may stand. -/
theorem exists_ended_error (h : build xs = .error e) :
    ∃ e', build (xs ++ [semicolon]) = .error e' := by
  cases hEnded : build (xs ++ [semicolon]) with
  | error e' => exact ⟨e', rfl⟩
  | ok trees =>
      obtain ⟨first, -, hFirst, -⟩ := build_semicolon.mp hEnded
      rw [h] at hFirst
      cases hFirst

private theorem splitOnP_dropLast_cut (hXs : ∀ x ∈ xs, Cut.isSemicolon x = false)
    (hMark : Cut.isSemicolon mark = true) :
    ((xs ++ mark :: ys).splitOnP Cut.isSemicolon).dropLast =
      xs :: (ys.splitOnP Cut.isSemicolon).dropLast := by
  rw [Cut.splitOnP_cut hXs hMark, List.dropLast_cons_of_ne_nil (List.splitOnP_ne_nil _ _)]

theorem RefusedPart.cut (hXs : ∀ x ∈ xs, Cut.isSemicolon x = false)
    (hMark : Cut.isSemicolon mark = true) (h : RefusedPart ys e) :
    RefusedPart (xs ++ mark :: ys) e := by
  cases h with
  | alone part hPart hRefused =>
      refine .alone part ?_ hRefused
      rw [Cut.splitOnP_cut hXs hMark]
      exact List.mem_cons_of_mem _ hPart
  | ended part hPart hRefused =>
      refine .ended part ?_ hRefused
      rw [splitOnP_dropLast_cut hXs hMark]
      exact List.mem_cons_of_mem _ hPart

/-- **What is said of a line** is said of one of its parts. -/
theorem refusedPart_of_build (ts : List Token) : build ts = .error e → RefusedPart ts e := by
  induction ts using Cut.cutInduction (p := Cut.isSemicolon) with
  | whole xs hXs =>
      intro h
      refine .alone xs ?_ h
      rw [List.splitOnP_eq_singleton hXs]
      exact List.mem_singleton_self xs
  | cut xs mark ys hXs hMark ih =>
      intro h
      rw [build_cut hMark] at h
      cases hEnded : build (xs ++ [semicolon]) with
      | error e' =>
          obtain rfl : e' = e := by simpa [hEnded, bind, Except.bind] using h
          refine .ended xs ?_ hEnded
          rw [splitOnP_dropLast_cut hXs hMark]
          exact List.mem_cons_self
      | ok first =>
          cases hRest : build ys with
          | error e' =>
              obtain rfl : e' = e := by simpa [hEnded, hRest, bind, Except.bind, Except.map] using h
              exact (ih hRest).cut hXs hMark
          | ok rest => simp [hEnded, hRest, bind, Except.bind, Except.map] at h

/-- A line is refused with whatever stands before a refused side of a semicolon. -/
private theorem exists_error_of_side (hMark : Cut.isSemicolon mark = true)
    (h : (∃ e, build (xs ++ [semicolon]) = .error e) ∨ ∃ e, build ys = .error e) :
    ∃ e, build (xs ++ mark :: ys) = .error e := by
  rw [build_cut hMark]
  cases hEnded : build (xs ++ [semicolon]) with
  | error e => exact ⟨e, rfl⟩
  | ok first =>
      obtain ⟨e, hRest⟩ : ∃ e, build ys = .error e :=
        h.resolve_left fun ⟨e, hError⟩ => by rw [hEnded] at hError; cases hError
      exact ⟨e, by rw [hRest]; rfl⟩

/-- **One refused part is enough**, however many complete ones stand before it. -/
theorem RefusedPart.exists_error (ts : List Token) :
    RefusedPart ts e → ∃ e', build ts = .error e' := by
  induction ts using Cut.cutInduction (p := Cut.isSemicolon) with
  | whole xs hXs =>
      rintro (⟨part, hPart, hRefused⟩ | ⟨part, hPart, hRefused⟩)
      · rw [List.splitOnP_eq_singleton hXs] at hPart
        obtain rfl := List.mem_singleton.mp hPart
        exact ⟨e, hRefused⟩
      · rw [List.splitOnP_eq_singleton hXs] at hPart
        cases hPart
  | cut xs mark ys hXs hMark ih =>
      rintro (⟨part, hPart, hRefused⟩ | ⟨part, hPart, hRefused⟩)
      · rw [Cut.splitOnP_cut hXs hMark] at hPart
        rcases List.mem_cons.mp hPart with rfl | hLater
        · exact exists_error_of_side hMark (.inl (exists_ended_error hRefused))
        · exact exists_error_of_side hMark (.inr (ih (.alone part hLater hRefused)))
      · rw [splitOnP_dropLast_cut hXs hMark] at hPart
        rcases List.mem_cons.mp hPart with rfl | hLater
        · exact exists_error_of_side hMark (.inl ⟨e, hRefused⟩)
        · exact exists_error_of_side hMark (.inr (ih (.ended part hLater hRefused)))

theorem exists_build_error_iff (ts : List Token) :
    (∃ e, build ts = .error e) ↔ ∃ e, RefusedPart ts e :=
  ⟨fun ⟨e, h⟩ => ⟨e, refusedPart_of_build ts h⟩, fun ⟨_, h⟩ => h.exists_error ts⟩

end Parts

end Tree

/-! ## Flaws of a line -/

namespace Session

open Token

variable {σ : Type} {s : Session σ} {line : String}

/-- What can be wrong with a line, pass by pass, with what is said of it. -/
inductive Flaw (s : Session σ) (line : String) : LineError → Prop
  /-- The line itself cannot be split into tokens. -/
  | line {e : LexError} (hTokens : tokenize line = .error e) : Flaw s line (.lexical e)
  /-- The value of an alias that is reached cannot. -/
  | value {ts : List Token} {name value : String} {e : LexError} (hTokens : tokenize line = .ok ts)
      (hValue : Unreadable s.aliases .command ts name value e) : Flaw s line (.lexical e)
  /-- A reference is not closed, in the line or in the value of an alias. -/
  | reference {ts expanded : List Token} {t : Token} (hTokens : tokenize line = .ok ts)
      (hExpand : expandAliases s.aliases ts = .ok expanded) (ht : t ∈ expanded)
      (hOpen : t.HasOpenReference) : Flaw s line .openReference
  /-- The tokens between two semicolons do not form a command. -/
  | part {ts : List Token} {e : ParseError} (hRead : s.readTokens line = .ok ts)
      (hPart : Tree.RefusedPart ts e) : Flaw s line (.parse e)

section Passes

variable {ts expanded : List Token} {e : LexError}

theorem readTokens_of_unread (hTokens : tokenize line = .error e) :
    s.readTokens line = .error (.lexical e) := by
  rw [readTokens, hTokens]
  rfl

theorem readTokens_of_unexpanded (hTokens : tokenize line = .ok ts)
    (hExpand : expandAliases s.aliases ts = .error e) :
    s.readTokens line = .error (.lexical e) := by
  simp only [readTokens, hTokens, hExpand, bind, Except.bind, Except.mapError]

theorem readTokens_of_expanded (hTokens : tokenize line = .ok ts)
    (hExpand : expandAliases s.aliases ts = .ok expanded) :
    s.readTokens line = expandVariablesList s.expansionEnv expanded := by
  simp only [readTokens, hTokens, hExpand, bind, Except.bind, Except.mapError]

theorem parse_of_unread {e : LineError} (hRead : s.readTokens line = .error e) :
    s.parse line = .error e := by
  rw [parse_eq, hRead]
  rfl

theorem parse_of_read (hRead : s.readTokens line = .ok ts) :
    s.parse line = (Tree.build ts).mapError .parse := by
  rw [parse_eq, hRead]
  rfl

end Passes

/-- **Every error of the reading** is one of the flaws. -/
theorem flaw_of_parse {e : LineError} (h : s.parse line = .error e) : Flaw s line e := by
  cases hTokens : tokenize line with
  | error e' =>
      rw [parse_of_unread (readTokens_of_unread hTokens)] at h
      cases h
      exact .line hTokens
  | ok ts =>
      cases hExpand : expandAliases s.aliases ts with
      | error e' =>
          rw [parse_of_unread (readTokens_of_unexpanded hTokens hExpand)] at h
          cases h
          obtain ⟨name, value, hValue⟩ := unreadable_of_expandAliases hExpand
          exact .value hTokens hValue
      | ok expanded =>
          have hRead := readTokens_of_expanded hTokens hExpand
          cases hFill : expandVariablesList s.expansionEnv expanded with
          | error e' =>
              rw [parse_of_unread (hRead.trans hFill)] at h
              cases h
              obtain ⟨rfl, t, ht, hOpen⟩ := expandVariablesList_eq_error_iff.mp hFill
              exact .reference hTokens hExpand ht hOpen
          | ok filled =>
              rw [parse_of_read (hRead.trans hFill)] at h
              cases hBuild : Tree.build filled with
              | error e' =>
                  rw [hBuild] at h
                  cases h
                  exact .part (hRead.trans hFill) (Tree.refusedPart_of_build filled hBuild)
              | ok trees =>
                  rw [hBuild] at h
                  cases h

/-- **A flaw anywhere** makes the reading fail. -/
theorem Flaw.exists_parse_error {e : LineError} (h : Flaw s line e) :
    ∃ e', s.parse line = .error e' := by
  cases h with
  | line hTokens => exact ⟨_, parse_of_unread (readTokens_of_unread hTokens)⟩
  | value hTokens hValue =>
      obtain ⟨e', hExpand⟩ := hValue.exists_error
      exact ⟨_, parse_of_unread (readTokens_of_unexpanded hTokens hExpand)⟩
  | reference hTokens hExpand ht hOpen =>
      refine ⟨.openReference, parse_of_unread ?_⟩
      rw [readTokens_of_expanded hTokens hExpand]
      exact expandVariablesList_eq_error_iff.mpr ⟨rfl, _, ht, hOpen⟩
  | part hRead hPart =>
      obtain ⟨e', hBuild⟩ := hPart.exists_error
      exact ⟨.parse e', by rw [parse_of_read hRead, hBuild]; rfl⟩

/-- What is said of a line that is refused fits on a line. -/
theorem newline_not_mem_message (e : LineError) : '\n' ∉ e.message.toList := by
  have hName : ∀ found : Option TokenKind,
      '\n' ∉ ((found.map TokenKind.name).getD "end of input").toList := by
    intro found
    cases found with
    | none => decide +kernel
    | some kind => cases kind <;> decide +kernel
  have hFirst : '\n' ∉ "expected command name but got ".toList := by decide +kernel
  cases e with
  | lexical e => cases e <;> decide +kernel
  | openReference => decide +kernel
  | parse e =>
      cases e with
      | noFile => decide +kernel
      | noCommand found =>
          have hText : (LineError.parse (.noCommand found)).message =
              "expected command name but got " ++ (found.map TokenKind.name).getD "end of input" :=
            rfl
          rw [hText, String.toList_append, List.mem_append, not_or]
          exact ⟨hFirst, hName found⟩

/--
**A flawed line runs nothing.** Take a line that is neither blank nor a comment and any
session, also one that is inside files being sourced. If the line cannot be read, what is
told is a flaw of the line. And if it has a flaw, wherever that stands and whatever stands
before it, the line gives no output, a message on one line and the status 2, for every store
and all commands. The session stays as it was but for its status: nothing was started, the
trace has no new event, and the store was not asked.
-/
theorem evaluate_flawed (s : Session σ) {line : String}
    (hCommand : Builtin.hasCommand line = true) :
    (∀ e, s.parse line = .error e → Flaw s line e) ∧
    ((∃ e, Flaw s line e) →
      ∃ e, s.parse line = .error e ∧ '\n' ∉ e.message.toList ∧
        ∀ shell : Shell σ, evaluate shell line s =
          .ok { stdout := "", stderr := "tronsh: syntax error: " ++ e.message ++ "\n",
                status := 2 }
            { s with lastStatus := 2 }) := by
  refine ⟨fun e hParse => flaw_of_parse hParse, ?_⟩
  rintro ⟨e, hFlaw⟩
  obtain ⟨e', hParse⟩ := hFlaw.exists_parse_error
  exact ⟨e', hParse, newline_not_mem_message e', fun shell =>
    evaluateWith_of_error (runLinesIn shell s.room) shell hCommand hParse⟩

/-- In a file that a file sources, with aliases that lead to an open quote. -/
def sourcingSession : Session Unit :=
  { env := defaultEnv, aliases := loopingAliases, history := ["ls"], lastStatus := 7, depth := 2,
    machine := { store := () } }

/-- The open quote is the value of `c`, which the value of `b` leads to, and that of `a` to
`b`. -/
theorem evaluate_flawed_sourcing :
    Builtin.hasCommand "pwd > /f; a" = true ∧
      Flaw sourcingSession "pwd > /f; a" (.lexical .openQuote) ∧
      ∀ shell : Shell Unit, evaluate shell "pwd > /f; a" sourcingSession =
        .ok { stdout := "", stderr := "tronsh: syntax error: unterminated string\n", status := 2 }
          { sourcingSession with lastStatus := 2 } := by
  have hCommand : Builtin.hasCommand "pwd > /f; a" = true := by decide
  have hTokens : tokenize "pwd > /f; a" =
      .ok [⟨.word, "pwd"⟩, ⟨.redirect, ">"⟩, ⟨.word, "/f"⟩, semicolon, ⟨.word, "a"⟩] := rfl
  have hAB : Mentions loopingAliases "a" "b" := ⟨_, _, rfl, rfl, by decide⟩
  have hBC : Mentions loopingAliases "b" "c" := ⟨_, _, rfl, rfl, by decide⟩
  have hValue : Unreadable sourcingSession.aliases .command
      [⟨.word, "pwd"⟩, ⟨.redirect, ">"⟩, ⟨.word, "/f"⟩, semicolon, ⟨.word, "a"⟩] "c" "'"
      .openQuote :=
    ⟨⟨"a", by decide, .head hAB (.single hBC)⟩, rfl, rfl⟩
  have hFlaw : Flaw sourcingSession "pwd > /f; a" (.lexical .openQuote) := .value hTokens hValue
  obtain ⟨e, hParse, -, hAnswer⟩ := (evaluate_flawed sourcingSession hCommand).2 ⟨_, hFlaw⟩
  -- no other mistake is there to be told
  have hTold : sourcingSession.parse "pwd > /f; a" = .error (.lexical .openQuote) := by
    obtain ⟨e', hFails⟩ := hValue.exists_error
    obtain ⟨name, value, hMet⟩ := unreadable_of_expandAliases hFails
    have hOther : ∀ entry ∈ sourcingSession.aliases.entries,
        tokenize entry.2 ≠ .error .loneAmpersand := by decide
    have hQuote : e' = .openQuote := by
      cases e' with
      | openQuote => rfl
      | loneAmpersand =>
          exact absurd hMet.refused (hOther _ (Table.mem_entries_of_get? hMet.isValue))
    rw [hQuote] at hFails
    exact parse_of_unread (readTokens_of_unexpanded hTokens hFails)
  obtain rfl : e = .lexical .openQuote := Except.error.inj (hParse.symm.trans hTold)
  exact ⟨hCommand, hFlaw, hAnswer⟩

end Session

end MemShell
