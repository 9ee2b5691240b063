import MemShell.Proofs.BlankDividers
import MemShell.Proofs.ChangeMonoid
import MemShell.Proofs.JoinedLines
import MemShell.Proofs.RedirectionRule
import MemShell.Proofs.RefusedLines
import MemShell.Proofs.ReportedStatus
import MemShell.Proofs.StaleSignal
import MemShell.Proofs.WrittenLines

/-!
# Lines of one command

Many lines are one command that prints something, or asks for variables and aliases to be
changed, and does nothing else. What such a line does to a session can be told from the
outcome of the command alone: the output is the one of the command, the changes are made, the
status is recorded, and all else stays, the store and the signal included.

Two parts are put together here. A line that starts with a word and goes on with texts is read
as a command of that name, unless the word is an alias; the texts are taken as they are, apart
from the references in them (`parse_command`). And a command that only computes and asks for
changes of names is run and its changes are made without asking the store (`evaluate_command`).

## Main results

* `Token.tokenize_blank` — a blank divides a line into two that are read on their own.
* `parse_command` — the command of a line, from its tokens.
* `apply_onNames` — changes of names, made.
* `evaluate_command`, `evaluate_argument` — a line of one command, evaluated.
-/

namespace MemShell

/-! ## Reading the line -/

namespace Token

open Scan

/-- A blank divides a line into two that are read on their own. -/
theorem tokenize_blank {first : String} {ts : List Token} (h : tokenize first = .ok ts)
    (second : String) :
    tokenize (first ++ " " ++ second) = (tokenize second).map (ts ++ ·) :=
  tokenize_behind_blanks h (List.all_eq_true.mp (by decide)) (by decide) second

/-- Behind the name of a command, texts are not expanded. -/
theorem expandLive_texts {ts : List Token} (h : ∀ t ∈ ts, t.kind.isText = true)
    (live : Table String String) : expandLive live .argument ts = .ok ts := by
  induction ts with
  | nil => exact expandLive_nil live .argument
  | cons t ts ih =>
      have hKept : Position.argument = .command → t.kind = .word → live.get? t.value = none := by
        intro hPlace
        cases hPlace
      rw [expandLive_cons_keep hKept, Position.next_of_isText (h t List.mem_cons_self),
        ih fun u hu => h u (List.mem_cons_of_mem t hu)]
      rfl

/-- Filling in references keeps the kind of a token. -/
theorem kind_of_expandVariables {env : Table String String} {t u : Token}
    (h : t.expandVariables env = .ok u) : u.kind = t.kind := by
  have hFilled : ∀ kind, (expandText env t.value).map (Token.mk kind) = .ok u → u.kind = kind := by
    intro kind hMap
    cases hText : expandText env t.value with
    | error e =>
        rw [hText] at hMap
        cases hMap
    | ok value =>
        rw [hText] at hMap
        cases hMap
        rfl
  unfold expandVariables at h
  cases hKind : t.kind with
  | word => exact hFilled _ (by simpa [hKind] using h)
  | doubleQuoted => exact hFilled _ (by simpa [hKind] using h)
  | _ =>
      simp only [hKind, Except.ok.injEq] at h
      rw [← h, hKind]

theorem expandVariablesList_cons_eq_ok_iff {env : Table String String} {t : Token}
    {ts us : List Token} :
    expandVariablesList env (t :: ts) = .ok us ↔
      ∃ u rest, t.expandVariables env = .ok u ∧ expandVariablesList env ts = .ok rest ∧
        us = u :: rest := by
  have hCons : expandVariablesList env (t :: ts) = (do
      let first ← t.expandVariables env
      let rest ← expandVariablesList env ts
      pure (first :: rest)) := List.mapM_cons
  rw [hCons]
  cases t.expandVariables env with
  | error e => simp [bind, Except.bind]
  | ok u =>
      cases expandVariablesList env ts with
      | error e => simp [bind, Except.bind]
      | ok rest => simp [bind, Except.bind, pure, Except.pure, eq_comm]

theorem expandVariablesList_eq_singleton_iff {env : Table String String} {ts : List Token}
    {u : Token} :
    expandVariablesList env ts = .ok [u] ↔ ∃ t, ts = [t] ∧ t.expandVariables env = .ok u := by
  cases ts with
  | nil =>
      refine ⟨fun h => ?_, fun ⟨t, hNone, _⟩ => by cases hNone⟩
      cases h
  | cons t ts =>
      rw [expandVariablesList_cons_eq_ok_iff]
      constructor
      · rintro ⟨u', rest, hFirst, hRest, hSame⟩
        obtain ⟨rfl, rfl⟩ := List.cons.inj hSame
        cases ts with
        | nil => exact ⟨t, rfl, hFirst⟩
        | cons _ _ =>
            obtain ⟨_, _, -, -, hMore⟩ := expandVariablesList_cons_eq_ok_iff.mp hRest
            cases hMore
      · rintro ⟨t', hSame, hFirst⟩
        obtain ⟨rfl, rfl⟩ := List.cons.inj hSame
        exact ⟨u, [], hFirst, rfl, rfl⟩

/-- A word is filled in as its text is. -/
theorem expandVariables_word_iff {env : Table String String} {text filled : String} :
    (⟨.word, text⟩ : Token).expandVariables env = .ok ⟨.word, filled⟩ ↔
      expandText env text = .ok filled := by
  show (expandText env text).map (Token.mk .word) = _ ↔ _
  cases expandText env text with
  | error e => simp [Except.map]
  | ok value => simp [Except.map]

/-- Texts are texts after their references are filled in. -/
theorem isText_of_expandVariablesList {env : Table String String} {ts : List Token} :
    ∀ {us : List Token}, expandVariablesList env ts = .ok us →
      (∀ t ∈ ts, t.kind.isText = true) → ∀ u ∈ us, u.kind.isText = true := by
  induction ts with
  | nil =>
      intro us h _ u hu
      cases h
      cases hu
  | cons t ts ih =>
      intro us h hTexts
      obtain ⟨first, rest, hFirst, hRest, rfl⟩ := expandVariablesList_cons_eq_ok_iff.mp h
      rw [List.forall_mem_cons] at hTexts ⊢
      rw [kind_of_expandVariables hFirst]
      exact ⟨hTexts.1, ih hRest hTexts.2⟩

end Token

namespace Tree

open Parse

/-- Texts are one command with its arguments. -/
theorem build_texts {t : Token} {ts : List Token} (h : ∀ u ∈ t :: ts, u.kind.isText = true) :
    build (t :: ts) = .ok [.simple ⟨t.value, ts.map Token.value, []⟩] := by
  have hFeed : reader.feed (.rest .empty t.value [] []) ts =
      .ok ([], .rest .empty t.value ((ts.map Token.value).reverse ++ []) []) :=
    feed_rest_texts (fun u hu => h u (List.mem_cons_of_mem t hu)) []
  have hFirst : reader.step .fresh t = .ok ([], .rest .empty t.value [] []) :=
    step_name_text (h t List.mem_cons_self)
  unfold build
  rw [Transducer.run_cons_of_step hFirst, Transducer.run_of_feed hFeed, List.append_nil]
  show Except.ok [Outer.empty.close (ofRead t.value (ts.map Token.value).reverse [])] = _
  rw [Outer.close_empty, ofRead, List.reverse_reverse]
  rfl

end Tree

namespace Session

open Token

variable {σ : Type}

/-- **The command of a line**: its first word, unless it is an alias, and the texts behind it,
with their references filled in. -/
theorem parse_command {s : Session σ} {line name : String} {ts us : List Token}
    (hTokens : tokenize line = .ok (⟨.word, name⟩ :: ts))
    (hAlias : s.aliases.get? name = none) (hName : '$' ∉ name.toList)
    (hTexts : ∀ t ∈ ts, t.kind.isText = true)
    (hFilled : expandVariablesList s.expansionEnv ts = .ok us) :
    s.parse line = .ok [.simple ⟨name, us.map Token.value, []⟩] := by
  have hExpanded : expandAliases s.aliases (⟨.word, name⟩ :: ts) = .ok (⟨.word, name⟩ :: ts) := by
    rw [expandAliases, expandLive_cons_keep fun _ _ => hAlias, Position.next_of_word rfl,
      expandLive_texts hTexts]
    rfl
  have hWord : (⟨.word, name⟩ : Token).expandVariables s.expansionEnv = .ok ⟨.word, name⟩ :=
    Written.expandVariables_of_inert (fun _ => hName) _
  have hRead : s.readTokens line = .ok (⟨.word, name⟩ :: us) :=
    (readTokens_of_expanded hTokens hExpanded).trans
      (expandVariablesList_cons_eq_ok_iff.mpr ⟨_, us, hWord, hFilled, rfl⟩)
  have hAll : ∀ u ∈ (⟨.word, name⟩ :: us : List Token), u.kind.isText = true :=
    List.forall_mem_cons.mpr ⟨rfl, isText_of_expandVariablesList hFilled hTexts⟩
  rw [parse_of_read hRead, Tree.build_texts hAll]
  rfl

/-- The command and the argument of a line of two words. -/
theorem parse_argument {s : Session σ} {name rest : String} {t u : Token}
    (hWord : tokenize name = .ok [⟨.word, name⟩]) (hAlias : s.aliases.get? name = none)
    (hName : '$' ∉ name.toList) (hToken : tokenize rest = .ok [t]) (hText : t.kind.isText = true)
    (hFilled : t.expandVariables s.expansionEnv = .ok u) :
    s.parse (name ++ " " ++ rest) = .ok [.simple ⟨name, [u.value], []⟩] := by
  have hTokens : tokenize (name ++ " " ++ rest) = .ok [⟨.word, name⟩, t] := by
    rw [tokenize_blank hWord, hToken]
    rfl
  have hAll : expandVariablesList s.expansionEnv [t] = .ok [u] :=
    expandVariablesList_cons_eq_ok_iff.mpr ⟨u, [], hFilled, rfl, rfl⟩
  exact parse_command hTokens hAlias hName (List.forall_mem_singleton.mpr hText) hAll

end Session

/-! ## Changes of names -/

/-- Changes of variables and aliases, and of nothing else. -/
structure Changes.OnNames (c : Changes) : Prop where
  chdir_eq : c.chdir = none
  sourceLines_eq : c.sourceLines = []
  exitCode_eq : c.exitCode = none

theorem Changes.onNames_empty : OnNames {} :=
  ⟨rfl, rfl, rfl⟩

namespace Session

variable {σ : Type} {shell : Shell σ} {s t : Session σ} {c : Changes}

/-- The session with variables and aliases changed. -/
def renamed (c : Changes) (s : Session σ) : Session σ :=
  { s with env := changedEnv s.env c, aliases := changedAliases s.aliases c }

theorem applyWith_onNames (sourcing : List String → SessionM σ Output) (h : c.OnNames) :
    applyWith sourcing shell c s = .ok none ((s.renamed c).noted c) := by
  obtain ⟨exports, unsets, aliases, unaliases, clearAliases, chdir, sourceLines, exitCode⟩ := c
  obtain ⟨rfl, rfl, rfl⟩ := h
  rfl

/-- **Changes of names are made** without asking the store, and nothing else is changed. -/
theorem apply_onNames (h : c.OnNames) : apply shell c s = .ok none ((s.renamed c).noted c) :=
  applyWith_onNames _ h

/-! ## Evaluating the line -/

theorem hasCommand_iff {line : String} :
    Builtin.hasCommand line = true ↔
      ∃ c rest, Text.trimLeft line.toList = c :: rest ∧ c ≠ '#' := by
  unfold Builtin.hasCommand
  cases hLeft : Text.trimLeft line.toList with
  | nil => simp [Text.trim, hLeft, Text.trimRight]
  | cons c rest =>
      have hBlank : Text.isBlank c = false := Text.not_isBlank_of_trimLeft_eq_cons hLeft
      rw [Text.trim, hLeft, Text.trimRight_cons_of_not_blank hBlank]
      simp

/-- A line that starts with one that has a command on it has one too. -/
theorem hasCommand_append {first : String} (h : Builtin.hasCommand first = true) (rest : String) :
    Builtin.hasCommand (first ++ rest) = true := by
  obtain ⟨c, cs, hLeft, hComment⟩ := hasCommand_iff.mp h
  refine hasCommand_iff.mpr ⟨c, cs ++ rest.toList, ?_, hComment⟩
  unfold Text.trimLeft at hLeft ⊢
  rw [String.toList_append, List.dropWhile_append, hLeft]
  rfl

/-- A line can run here: no signal is up that a line does not renew. -/
def IsFree (s : Session σ) : Prop :=
  s.renewed.machine.isStopped = false

/-- Between calls every line can run. -/
theorem isFree_of_depth (h : s.depth = 0) : s.IsFree :=
  not_isStopped_renewed h

/-- The second session is the first after a command with this outcome was run and the changes
of names that it asks for were made: its status is recorded, and the trace tells of it. -/
structure AfterCommand (s : Session σ) (o : Outcome) (t : Session σ) : Prop where
  eq : t = { s.renamed o.changes with lastStatus := o.status, machine := t.machine }
  store_eq : t.machine.store = s.machine.store
  signal_eq : t.machine.signal = s.machine.signal

theorem renamed_of_isEmpty (h : c.isEmpty = true) (s : Session σ) : s.renamed c = s := by
  rw [Changes.eq_empty_of_isEmpty h]
  rfl

section Command

variable {name : String} (args : List String)

/-- A command that gives an outcome and leaves the host as it is: so does running it, but for
the trace. -/
theorem runSimple_of_answer {registry : Registry (Command σ)} {command : Command σ}
    (hCommand : registry.builtins.get? name = some command) {ctx : Context σ} {m : Machine σ}
    {o : Outcome} (hAnswer : command ⟨args, ctx, registry.names⟩ m.host = .ok (some o) m.host) :
    ∃ m' : Machine σ, m'.store = m.store ∧ m'.signal = m.signal ∧
      Execute.runSimple registry ctx ⟨name, args, []⟩ m = .ok o m' := by
  have hReady : Execute.Ready registry ctx ⟨name, args, []⟩ m ctx command m :=
    ⟨⟨[], .done m, rfl⟩, Registry.resolve_eq_builtin hCommand ctx.env⟩
  have hCall : Execute.call registry ctx ⟨name, args, []⟩ command m.host = .ok (some o) m.host :=
    hAnswer
  have hStill : endState (Execute.call registry ctx ⟨name, args, []⟩ command) m.host = m.host := by
    rw [endState, hCall]
  refine ⟨Execute.called registry ctx ⟨name, args, []⟩ command m, ?_, ?_, ?_⟩
  · exact congrArg Host.store hStill
  · exact congrArg Host.signal hStill
  · rw [Execute.runSimple_of_ready hReady, answerOf, hCall]
    rfl

/-- A command that computes its outcome is run beside the store and the signal. -/
theorem runSimple_pure {registry : Registry (Command σ)} {f : Call σ → Outcome}
    (hCommand : registry.builtins.get? name = some (.pure f)) (ctx : Context σ) (m : Machine σ) :
    ∃ m' : Machine σ, m'.store = m.store ∧ m'.signal = m.signal ∧
      Execute.runSimple registry ctx ⟨name, args, []⟩ m =
        .ok (f ⟨args, ctx, registry.names⟩) m' :=
  runSimple_of_answer args hCommand rfl

end Command

/-- Before anything was printed, an output stands for itself. -/
theorem silent_followedBy (status : Int) (output : Output) :
    ({ status } : Output).followedBy output = output := by
  simp [Output.followedBy]

/-- A single tree is run, and that is all. -/
theorem runTrees_singleton (sourcing : List String → SessionM σ Output) (tree : Tree)
    (status : Int) (s : Session σ) :
    runTrees sourcing shell [tree] { status } s = runTree sourcing shell tree s := by
  cases hTree : runTree sourcing shell tree s with
  | error e t => exact runTrees_cons_of_error hTree _ _
  | ok output t =>
      rw [runTrees_cons_of_ok hTree, silent_followedBy]
      split <;> rfl

/-- A tree is run, its status is recorded, and what it asks for is made. -/
theorem runTree_of_run (sourcing : List String → SessionM σ Output) {tree : Tree} {o : Outcome}
    {m : Machine σ} (hRun : Execute.run shell.registry (s.context shell) tree
      (s.machine.log (.started tree)) = .ok o m) :
    runTree sourcing shell tree s =
      if o.changes.isEmpty then .ok o.output (s.recorded o m)
      else (do
        let extra ← applyWith sourcing shell o.changes
        return extra.elim o.output o.output.followedBy : SessionM σ Output) (s.recorded o m) := by
  have hEnd : onMachine (Execute.run shell.registry (s.context shell) tree)
      { s with machine := s.machine.log (.started tree) } = .ok o { s with machine := m } :=
    onMachine_of_ok hRun
  unfold runTree
  refine (bind_of_ok rfl).trans ((bind_of_ok rfl).trans ((bind_of_ok hEnd).trans ?_))
  refine (bind_of_ok rfl).trans ?_
  cases o.changes.isEmpty with
  | true => rfl
  | false =>
      refine bind_congr_of_ok rfl fun extra t _ => ?_
      cases extra <;> rfl

/-- A tree that asks for changes of names is run, and they are made. -/
theorem runTree_onNames (sourcing : List String → SessionM σ Output) {tree : Tree} {o : Outcome}
    {m : Machine σ} (hRun : Execute.run shell.registry (s.context shell) tree
      (s.machine.log (.started tree)) = .ok o m) (hNames : o.changes.OnNames) :
    ∃ t, runTree sourcing shell tree s = .ok o.output t ∧
      AfterCommand { s with machine := m } o t := by
  rw [runTree_of_run sourcing hRun]
  cases hChanges : o.changes.isEmpty with
  | true =>
      refine ⟨s.recorded o m, rfl, ?_, rfl, rfl⟩
      rw [renamed_of_isEmpty hChanges]
      rfl
  | false =>
      refine ⟨((s.recorded o m).renamed o.changes).noted o.changes, ?_, rfl, rfl, rfl⟩
      exact bind_of_ok (applyWith_onNames sourcing hNames)

/-- The renewed signal is the machine's; the rest is what it was before the line. -/
theorem AfterCommand.eq_of_renewed {o : Outcome} (h : AfterCommand s.renewed o t) :
    t = { s.renamed o.changes with lastStatus := o.status, machine := t.machine } := by
  have hSame := congrArg (fun u : Session σ => { u.renamed o.changes with lastStatus := o.status })
    (renewed_withMachine s t.machine)
  exact h.eq.trans hSame

theorem AfterCommand.isFree {o : Outcome} (h : AfterCommand s.renewed o t) (hFree : s.IsFree) :
    t.IsFree := by
  have hDepth : t.depth = s.depth := by
    rw [h.eq]
    exact depth_renewed s
  unfold IsFree at hFree ⊢
  by_cases hTop : s.depth = 0
  · exact not_isStopped_renewed (hDepth.trans hTop)
  · rw [renewed_of_pos (hDepth ▸ Nat.pos_of_ne_zero hTop), Machine.isStopped, h.signal_eq]
    exact hFree

/-- **A line of one command.** If the command computes its outcome and asks for changes of names
only, the line gives the output of the command and makes the changes. -/
theorem evaluate_command {line name : String} {args : List String} {f : Call σ → Outcome}
    {o : Outcome} (hHas : Builtin.hasCommand line = true)
    (hParse : s.parse line = .ok [.simple ⟨name, args, []⟩])
    (hCommand : shell.registry.builtins.get? name = some (.pure f)) (hFree : s.IsFree)
    (hOutcome : f ⟨args, s.context shell, shell.registry.names⟩ = o) (hNames : o.changes.OnNames) :
    ∃ t, evaluate shell line s = .ok o.output t ∧ AfterCommand s.renewed o t := by
  have hStarted : (s.renewed.machine.log (.started (.simple ⟨name, args, []⟩))).isStopped = false :=
    hFree
  obtain ⟨m, hStore, hSignal, hSimple⟩ := runSimple_pure args hCommand (s.renewed.context shell)
    (s.renewed.machine.log (.started (.simple ⟨name, args, []⟩)))
  have hRun : Execute.run shell.registry (s.renewed.context shell) (.simple ⟨name, args, []⟩)
      (s.renewed.machine.log (.started (.simple ⟨name, args, []⟩))) = .ok o m := by
    rw [Execute.run, Execute.unlessStopped_of_not_isStopped hStarted, hSimple, context_renewed, hOutcome]
  obtain ⟨t, hTree, hAfter⟩ := runTree_onNames (runLinesIn shell s.room) hRun hNames
  refine ⟨t, ?_, hAfter.eq, hAfter.store_eq.trans hStore, hAfter.signal_eq.trans hSignal⟩
  show evaluateWith (runLinesIn shell s.room) shell line s = _
  rw [evaluateWith_of_parse _ _ hHas hParse, runTrees_singleton, hTree]

/-- A line of a command and one argument that asks for changes of names: they are made, and
nothing is printed. -/
theorem evaluate_argument {name rest : String} {f : Call σ → Outcome} {t u : Token}
    (hHas : Builtin.hasCommand name = true) (hWord : Token.tokenize name = .ok [⟨.word, name⟩])
    (hAlias : s.aliases.get? name = none) (hName : '$' ∉ name.toList)
    (hToken : Token.tokenize rest = .ok [t]) (hText : t.kind.isText = true)
    (hFilled : t.expandVariables s.expansionEnv = .ok u)
    (hCommand : shell.registry.builtins.get? name = some (.pure f)) (hFree : s.IsFree)
    (hOutcome : f ⟨[u.value], s.context shell, shell.registry.names⟩ = .changing c)
    (hNames : c.OnNames) :
    ∃ s', evaluate shell (name ++ " " ++ rest) s = .ok ⟨"", "", 0⟩ s' ∧
      AfterCommand s.renewed (.changing c) s' :=
  evaluate_command (hasCommand_append (hasCommand_append hHas " ") rest)
    (parse_argument hWord hAlias hName hToken hText hFilled) hCommand hFree hOutcome hNames

theorem AfterCommand.store_eq_of_renewed {o : Outcome} (h : AfterCommand s.renewed o t) :
    t.machine.store = s.machine.store :=
  h.store_eq.trans (store_renewed s)

end Session

end MemShell
