import MemShell.Proofs.AskedChanges
import MemShell.Proofs.ContainedFaults
import MemShell.Proofs.ProgramSearch
import MemShell.Proofs.QuietSignals
import MemShell.Proofs.SingleCommands
import MemShell.Proofs.TokenSpellings

/-!
# The profile is sourced

The profile of a session is a file of lines, and `source` runs the lines of a file. The two
come to the same lines on different ways: one reads the file for itself and runs what it
finds, the other is a command in a line, which resolves the path, asks for the lines as a
change, has its own status recorded and gives the session a signal. In a session that waits
for a line, after a success, the ways lead to the same place.

The line is followed up to the point where the lines of the file are to run (`evaluate_source`),
and so is the profile (`runProfile_of_read`). There the two sessions agree but for the trace and
a signal that stays down, and from there on nothing can tell them apart, whatever the lines do.

## Main results

* `Session.parse_of_quotesSource` — a line that sources a path in quotes, read.
* `Session.evaluate_returns` — a line of core commands returns.
* `Session.evaluate_source` — such a line runs the lines of the file.
* `Session.runProfile_sources` — so does the profile, to the same effect.
-/

namespace MemShell

open Token Token.Scan

/-! ## Lines that source a file -/

/-- The line calls `source` for the path, and both of them are in quotes. A path with a `$`
keeps it in single quotes only. -/
def QuotesSource (line path : String) : Prop :=
  ∃ q q' : Quote, tokenize line = .ok [⟨q.kind, "source"⟩, ⟨q'.kind, path⟩] ∧
    (q' = .double → '$' ∉ path.toList)

/-- A text that was put in quotes is a token of that kind of quotes. -/
theorem Written.exists_quote_textToken (s : String) :
    ∃ q : Quote, Written.textToken s = ⟨q.kind, s⟩ ∧ (q = .double → '$' ∉ s.toList) := by
  unfold Written.textToken
  split
  · exact ⟨.single, rfl, fun hDouble => by cases hDouble⟩
  · exact ⟨.double, rfl, fun _ => ‹_›⟩

/-- Every path that can be put in quotes can be sourced. -/
theorem QuotesSource.of_quotable {path : String} (h : Written.Quotable path) :
    QuotesSource (Written.quote "source" ++ " " ++ Written.quote path) path := by
  have hName : tokenize (Written.quote "source") = .ok [Written.textToken "source"] :=
    (Written.spells_quote (.inl (by decide))).tokenize
  obtain ⟨q, hSource, -⟩ := Written.exists_quote_textToken "source"
  obtain ⟨q', hPath, hDollar⟩ := Written.exists_quote_textToken path
  refine ⟨q, q', ?_, hDollar⟩
  rw [tokenize_blank hName, (Written.spells_quote h).tokenize, hSource, hPath]
  rfl

/-- A token in quotes is spelled with its quote first. -/
theorem Token.Spelling.exists_eq_mark_cons {q : Quote} {value : String} {spelling : List Char}
    (h : Spelling ⟨q.kind, value⟩ spelling) : ∃ more, spelling = q.mark :: more := by
  cases q with
  | single =>
      cases h with
      | operator hSymbol => cases hSymbol
      | single _ => exact ⟨_, rfl⟩
  | double =>
      cases h with
      | operator hSymbol => cases hSymbol
      | double _ => exact ⟨_, rfl⟩

/-- A line whose first token is in quotes has a command on it. -/
theorem hasCommand_of_quoted {line value : String} {q : Quote} {ts : List Token}
    (h : tokenize line = .ok (⟨q.kind, value⟩ :: ts)) : Builtin.hasCommand line = true := by
  have hMark : Text.isBlank q.mark = false ∧ q.mark ≠ '#' := by cases q <;> decide
  have hLayout := layout_of_scan h
  generalize hChars : line.toList = cs at hLayout
  cases hLayout with
  | @cons _ _ blanks spelling rest hBlanks hSpelling hRest =>
      obtain ⟨more, rfl⟩ := hSpelling.exists_eq_mark_cons
      refine Session.hasCommand_iff.mpr ⟨q.mark, more ++ rest, ?_, hMark.2⟩
      rw [Text.trimLeft, hChars, List.append_assoc, List.dropWhile_append_of_pos hBlanks]
      exact List.dropWhile_cons_of_neg (by simp [hMark.1])

/-- The tree of a line that sources a file. -/
def sourceTree (path : String) : Tree :=
  .simple ⟨"source", [path], []⟩

namespace Session

/-- **The line is one command**, whatever aliases and variables there are. -/
theorem parse_of_quotesSource {σ : Type} {line path : String} (h : QuotesSource line path)
    (s : Session σ) : s.parse line = .ok [sourceTree path] := by
  obtain ⟨q, q', hTokens, hDollar⟩ := h
  have hQuoted : ∀ t ∈ ([⟨q.kind, "source"⟩, ⟨q'.kind, path⟩] : List Token),
      t.kind ≠ .word ∧ t.kind.isText = true ∧ Written.Inert t := by
    cases q <;> cases q' <;> simp_all [Quote.kind, TokenKind.isText, Written.Inert]
  have hRead : s.readTokens line = .ok [⟨q.kind, "source"⟩, ⟨q'.kind, path⟩] :=
    (readTokens_of_expanded hTokens
      (Written.expandLive_of_quoted (fun t ht => (hQuoted t ht).1) _ _)).trans
      (Written.expandVariablesList_of_inert (fun t ht => (hQuoted t ht).2.2) _)
  rw [parse_of_read hRead, Tree.build_texts fun t ht => (hQuoted t ht).2.1]
  rfl

end Session

/-! ## Lines of core commands return -/

/-- Whatever the command lets out is a fault. -/
def Command.Faults {σ : Type} (command : Command σ) : Prop :=
  ∀ call host e, answerOf (command call) host = .error e → ∃ f, e = .fault f

theorem Command.faults_pure {σ : Type} (f : Call σ → Outcome) : (Command.pure f).Faults := by
  intro call host e hAnswer
  cases hAnswer

theorem Command.faults_ofHost {σ : Type} (f : Call σ → HostM Fault σ Outcome) :
    (Command.ofHost f).Faults := by
  intro call host e hAnswer
  rw [answerOf_ofHost_eq] at hAnswer
  cases hCall : answerOf (f call) host with
  | ok o =>
      rw [hCall] at hAnswer
      cases hAnswer
  | error fault =>
      rw [hCall] at hAnswer
      cases hAnswer
      exact ⟨fault, rfl⟩

theorem Builtin.ordinary_registry {σ : Type} : (registry : Registry (Command σ)).Ordinary := by
  have hCore : ∀ e ∈ (core : List (List String × Command σ)), e.2.Faults := by
    simp [core, Command.faults_pure, Command.faults_ofHost]
  have hHolds : (registry : Registry (Command σ)).Holds Command.Faults :=
    Registry.Holds.of_entries core hCore Registry.holds_empty
  exact fun env name command hResolve => hHolds.of_resolve hResolve

theorem Storage.answers_memory : Storage.memory.Answers where
  isDir := by
    intro isDir hIsDir path m
    cases hIsDir
    rfl
  contains := fun _ => rfl

/-- **A line of core commands returns** in every session over a store in memory. -/
theorem Session.evaluate_returns (line : String) (s : Session FileTree) :
    ∃ out t, evaluate Cli.shell line s = .ok out t := by
  rcases @evaluate_contained _ Cli.shell Builtin.ordinary_registry line s with hOk | hFailed
  · exact hOk
  · obtain ⟨e, t, -, hLook⟩ := hFailed
    exact absurd hLook (not_lookFailed Storage.answers_memory)

/-! ## Sourcing a file -/

/-- What leaves the host as it is leaves the machine as it is. -/
theorem Execute.onHost_of_still {ε σ α : Type} {action : HostM ε σ α} {m : Machine σ} {a : α}
    (h : action m.host = .ok a m.host) : onHost action m = .ok a m := by
  rw [onHost_ok h]
  simp [Machine.absorb, Machine.host]

namespace FileTree

variable {t : FileTree} {path path' content : String}

/-- Paths that name the same place name the same file. -/
theorem read_congr (h : Location.ofText path = Location.ofText path') :
    t.read path = t.read path' := by
  rw [read, read, h]

theorem contains_of_read (h : t.read path = .ok content) : t.contains path = true := by
  have hGet : t.files.get? (.ofText path) = some content := by
    simp only [read] at h
    split at h
    · cases h
    · split at h
      · rename_i found hFound
        rw [hFound, Except.ok.inj h]
      · cases h
  simp [contains, hasFile, Table.contains, hGet]

end FileTree

namespace Builtin

/-- `source` asks for the lines of a file that can be read. -/
theorem source_of_read {ctx : Context FileTree} (hStorage : ctx.storage = some .memory)
    {path content : String} (hPath : path.startsWith "/" = true) {host : Host FileTree}
    (hRead : host.store.read path = .ok content) :
    source [path] ctx host = .ok (.changing { sourceLines := commandLines content }) host := by
  have hFile : ctx.readFile path host = .ok content host := by
    simp only [Context.readFile, hStorage, Context.resolve, resolvePath_of_absolute hPath,
      Storage.memory_read, FileTree.read_congr (Location.ofText_normalize path), hRead]
  have hAttempt : (attempt (ctx.readFile path) : HostM Fault FileTree _) host =
      .ok (.ok content) host := by
    simp only [attempt, hFile]
  unfold source
  exact bind_of_ok hAttempt

end Builtin

namespace Session

/-- Lines that are asked for, and nothing else: they are run. -/
theorem applyWith_sourceLines {σ : Type} {shell : Shell σ}
    (sourcing : List String → SessionM σ Output) {lines : List String} (h : lines ≠ [])
    (s : Session σ) :
    applyWith sourcing shell { sourceLines := lines } s =
      (some <$> sourcing lines) (s.noted { sourceLines := lines }) := by
  obtain ⟨line, lines, rfl⟩ := List.exists_cons_of_ne_nil h
  unfold applyWith
  refine (bind_of_ok rfl).trans ((bind_of_ok rfl).trans ((bind_of_ok rfl).trans ?_))
  show ((some <$> sourcing (line :: lines)) >>= Pure.pure) _ = _
  rw [bind_pure]
  rfl

/-- A tree that asks for lines to be run, and for nothing else. -/
theorem runTree_sourceLines {σ : Type} {shell : Shell σ} {s : Session σ}
    (sourcing : List String → SessionM σ Output) {tree : Tree} {lines : List String}
    {m : Machine σ} (hRun : Execute.run shell.registry (s.context shell) tree
      (s.machine.log (.started tree)) = .ok (.changing { sourceLines := lines }) m)
    (hLines : lines ≠ []) :
    runTree sourcing shell tree s =
      sourcing lines
        { s with lastStatus := 0, machine := m.log (.applied { sourceLines := lines }) } := by
  have hAsked : (Outcome.changing { sourceLines := lines }).changes.isEmpty = false := by
    obtain ⟨line, lines, rfl⟩ := List.exists_cons_of_ne_nil hLines
    rfl
  have hApply : applyWith sourcing shell { sourceLines := lines }
      (s.recorded (.changing { sourceLines := lines }) m) = _ :=
    applyWith_sourceLines sourcing hLines _
  rw [runTree_of_run sourcing hRun, hAsked]
  generalize hRest : sourcing lines _ = result
  cases result with
  | ok out t =>
      have hSome : (some <$> sourcing lines) _ = .ok (some out) t := bind_of_ok hRest
      refine (bind_of_ok (hApply.trans hSome)).trans ?_
      exact congrArg (EStateM.Result.ok · t) (silent_followedBy 0 out)
  | error e t =>
      have hError : (some <$> sourcing lines) _ = .error e t := bind_of_error hRest
      exact bind_of_error (hApply.trans hError)

section Sourcing

variable {s : Session FileTree} {line path content : String}

/-- Running the command `source` for a file that can be read. -/
theorem exists_run_sourceTree {ctx : Context FileTree} (hStorage : ctx.storage = some .memory)
    (hPath : path.startsWith "/" = true) (m : Machine FileTree) (hStopped : m.isStopped = false)
    (hRead : m.store.read path = .ok content) :
    ∃ m' : Machine FileTree, m'.store = m.store ∧ m'.signal = m.signal ∧
      Execute.run Builtin.registry ctx (sourceTree path) m =
        .ok (.changing { sourceLines := Builtin.commandLines content }) m' := by
  have hCommand : (Builtin.registry : Registry (Command FileTree)).builtins.get? "source" =
      some (.ofHost fun call => Builtin.source call.args call.context) := rfl
  have hSource : Builtin.source [path] ctx m.host = .ok (.changing _) m.host :=
    Builtin.source_of_read hStorage hPath hRead
  have hRaising : raising (Builtin.source [path] ctx) m.host =
      .ok (.changing { sourceLines := Builtin.commandLines content }) m.host := by
    simp only [raising, hSource]
  rw [sourceTree, Execute.run, Execute.unlessStopped_of_not_isStopped hStopped]
  exact runSimple_of_answer [path] hCommand (bind_of_ok hRaising)

/-- **A line that sources a file** runs the lines of the file, if there are any, in the session
after the command `source`. -/
theorem evaluate_source (hFree : s.IsFree) (hLine : QuotesSource line path)
    (hPath : path.startsWith "/" = true) (hRead : s.machine.store.read path = .ok content) :
    ∃ m : Machine FileTree, m.store = s.machine.store ∧ m.signal = s.renewed.machine.signal ∧
      evaluate Cli.shell line s =
        if Builtin.commandLines content = [] then .ok {} { s with lastStatus := 0, machine := m }
        else runLines Cli.shell (Builtin.commandLines content)
          { s with lastStatus := 0, machine := m } := by
  have hSame : ∀ m : Machine FileTree, { s.renewed with lastStatus := 0, machine := m } =
      { s with lastStatus := 0, machine := m } := fun m =>
    congrArg (fun t : Session FileTree => { t with lastStatus := 0 }) (renewed_withMachine s m)
  have hFound : s.renewed.machine.store.read path = .ok content := by
    rw [store_renewed, hRead]
  obtain ⟨m, hRunStore, hRunSignal, hRun⟩ := exists_run_sourceTree
    (rfl : (s.renewed.context Cli.shell).storage = _) hPath
    (s.renewed.machine.log (.started (sourceTree path))) hFree hFound
  have hHas : Builtin.hasCommand line = true := by
    obtain ⟨_, _, hTokens, -⟩ := hLine
    exact hasCommand_of_quoted hTokens
  have hEvaluate : evaluate Cli.shell line s =
      runTree (runLinesIn Cli.shell s.room) Cli.shell (sourceTree path) s.renewed := by
    show evaluateWith (runLinesIn Cli.shell s.room) Cli.shell line s = _
    rw [evaluateWith_of_parse _ _ hHas (parse_of_quotesSource hLine s), runTrees_singleton]
  by_cases hLines : Builtin.commandLines content = []
  · refine ⟨m, hRunStore.trans (store_renewed s), hRunSignal, ?_⟩
    rw [if_pos hLines, hEvaluate, runTree_of_run _ hRun, hLines]
    exact congrArg (EStateM.Result.ok _) (hSame m)
  · refine ⟨m.log (.applied { sourceLines := Builtin.commandLines content }),
      hRunStore.trans (store_renewed s), hRunSignal, ?_⟩
    rw [if_neg hLines, hEvaluate, runTree_sourceLines _ hRun hLines, hSame]
    rfl

/-- **The profile**, if it can be read: its lines are run. -/
theorem runProfile_of_read (hRead : s.machine.store.read s.profilePath = .ok content) :
    runProfile Cli.shell s = (do
      let output ← runLines Cli.shell (Builtin.commandLines content)
      if output.status ≠ 0 then emit (.profileFailed s.profilePath output.status)
      return some output : SessionM FileTree (Option Output)) s := by
  have hThere : raising (Storage.memory.contains s.profilePath) s.machine.host =
      .ok true s.machine.host := by
    have hContains : s.machine.host.store.contains s.profilePath = true :=
      FileTree.contains_of_read hRead
    simp only [raising, Storage.memory_contains, hContains]
  have hContent : Storage.memory.read s.profilePath s.machine.host =
      .ok content s.machine.host := by
    have hHost : s.machine.host.store.read s.profilePath = .ok content := hRead
    simp only [Storage.memory_read, hHost]
  have hAsk : onStorage (Cli.shell.storage.contains s.profilePath) s = .ok true s :=
    onMachine_of_ok (Execute.onHost_of_still hThere)
  have hFile : onMachine (attempt (Execute.onHost (Cli.shell.storage.read s.profilePath))) s =
      .ok (.ok content) s := by
    refine onMachine_of_ok ?_
    rw [attempt, show Execute.onHost (Cli.shell.storage.read s.profilePath) s.machine = _ from
      Execute.onHost_of_still hContent]
  unfold runProfile
  refine (bind_of_ok rfl).trans ((bind_of_ok hAsk).trans ?_)
  exact bind_of_ok hFile

/-- Where the profile ends, its lines ended, but for what was written down. -/
theorem exists_runProfile {output : Output} {t : Session FileTree}
    (hRead : s.machine.store.read s.profilePath = .ok content)
    (hRun : runLines Cli.shell (Builtin.commandLines content) s = .ok output t) :
    ∃ m : Machine FileTree, m.store = t.machine.store ∧
      runProfile Cli.shell s = .ok (some output) { t with machine := m } := by
  rw [runProfile_of_read hRead]
  by_cases hStatus : output.status = 0
  · refine ⟨t.machine, rfl, (bind_of_ok hRun).trans ?_⟩
    simp only [hStatus, ne_eq, not_true_eq_false, if_false]
    rfl
  · refine ⟨t.machine.log (.profileFailed s.profilePath output.status), rfl,
      (bind_of_ok hRun).trans ?_⟩
    simp only [ne_eq, hStatus, not_false_eq_true, if_true]
    rfl

/-- **Lines of a file** end alike, whether they are run at once or by a line that sources the
file, in a session between two lines after a success. -/
theorem sameEnd_runLines_source (hDepth : s.depth = 0) (hStatus : s.lastStatus = 0)
    (hSignal : StaysDown s.machine.signal) (hLine : QuotesSource line path)
    (hPath : path.startsWith "/" = true) (hRead : s.machine.store.read path = .ok content) :
    SameEnd Undisturbed (runLines Cli.shell (Builtin.commandLines content) s)
      (evaluate Cli.shell line s) := by
  obtain ⟨m, hStore, hRenewed, hEvaluate⟩ :=
    evaluate_source (isFree_of_depth hDepth) hLine hPath hRead
  have hMachines : s.machine.Undisturbed m :=
    ⟨hStore.symm, hSignal, hRenewed ▸ staysDown_renewed hSignal⟩
  have hSame : ({ s with lastStatus := 0, machine := m } : Session FileTree) =
      { s with machine := m } := by
    rw [← hStatus]
  rw [hEvaluate, hSame]
  by_cases hLines : Builtin.commandLines content = []
  · -- the file is entered and left again, which only the trace tells
    have hRoom : s.room = 15 + 1 := by rw [room, hDepth, maxDepth]
    have hNone : runLines Cli.shell [] s =
        .ok {} { s with machine := s.machine.log (.entered (s.depth + 1)) } := by
      rw [runLines, hRoom]
      exact nested_ok rfl
    have hAfter : Undisturbed { s with machine := s.machine.log (.entered (s.depth + 1)) }
        { s with machine := m } :=
      ⟨m, ⟨hMachines.store, hMachines.left, hMachines.right⟩, rfl⟩
    rw [if_pos hLines, hLines, hNone]
    exact .returned _ hAfter
  · have hAfter : Undisturbed s { s with machine := m } := ⟨m, hMachines, rfl⟩
    rw [if_neg hLines]
    exact blind_runLinesIn blind_core s.room _ s _ hAfter

end Sourcing

/-! ## The profile -/

/-- The two sessions have the same of all that can be seen from a line or from outside. -/
structure SameEffect {σ : Type} (s t : Session σ) : Prop where
  env : s.env = t.env
  aliases : s.aliases = t.aliases
  history : s.history = t.history
  lastStatus : s.lastStatus = t.lastStatus
  exitRequested : s.exitRequested = t.exitRequested
  exitCode : s.exitCode = t.exitCode
  store : s.machine.store = t.machine.store

theorem Undisturbed.sameEffect {s t : Session FileTree} (h : Undisturbed s t) :
    s.SameEffect t := by
  obtain ⟨n, hMachines, rfl⟩ := h
  exact ⟨rfl, rfl, rfl, rfl, rfl, rfl, hMachines.store⟩

section ProfilePath

variable {σ : Type} {s : Session σ} {home : String} (hHome : s.env.get? "HOME" = some home)

include hHome

theorem toList_profilePath :
    s.profilePath.toList = (Registry.dropSlashes home).toList ++ "/.profile".toList := by
  rw [profilePath, hHome, Option.getD_some, String.toList_append]

/-- The profile has an absolute path if the user's directory has one. -/
theorem startsWith_profilePath (hAbsolute : home.startsWith "/" = true) :
    s.profilePath.startsWith "/" = true := by
  obtain ⟨⟨m, hParts⟩, -⟩ := Registry.exists_dropSlashes home
  rw [startsWith_slash_iff] at hAbsolute ⊢
  rw [toList_profilePath hHome]
  cases hDir : (Registry.dropSlashes home).toList with
  | nil => rfl
  | cons c cs =>
      rw [hParts, hDir] at hAbsolute
      exact hAbsolute

/-- It can be put in quotes if the directory can. -/
theorem quotable_profilePath (hQuotable : Written.Quotable home) :
    Written.Quotable s.profilePath := by
  obtain ⟨⟨m, hParts⟩, -⟩ := Registry.exists_dropSlashes home
  have hKept : ∀ c : Char, c ∉ "/.profile".toList → c ∉ home.toList → c ∉ s.profilePath.toList := by
    intro c hName hNot hMem
    rw [toList_profilePath hHome, List.mem_append] at hMem
    refine hNot ?_
    rw [hParts]
    exact List.mem_append_left _ (hMem.resolve_right hName)
  exact hQuotable.imp (hKept _ (by decide)) (hKept _ (by decide))

end ProfilePath

/-- **Loading the profile is sourcing it.** Take a session between two lines, after a success
and with nothing to watch, whose user has an absolute directory that can be put in quotes, and
a profile that can be read. Then there is a line that sources the profile, and every line that
does, under whatever absolute path, returns what the profile returns and has the same effect. -/
theorem runProfile_sources {s : Session FileTree} {home content : String} (hDepth : s.depth = 0)
    (hStatus : s.lastStatus = 0) (hSignal : s.machine.signal = none)
    (hHome : s.env.get? "HOME" = some home) (hAbsolute : home.startsWith "/" = true)
    (hQuotable : Written.Quotable home)
    (hRead : s.machine.store.read s.profilePath = .ok content) :
    (∃ line, QuotesSource line s.profilePath) ∧ s.profilePath.startsWith "/" = true ∧
      ∀ line path, QuotesSource line path → path.startsWith "/" = true →
        Location.ofText path = Location.ofText s.profilePath →
          ∃ output t t', runProfile Cli.shell s = .ok (some output) t ∧
            evaluate Cli.shell line s = .ok output t' ∧ t.SameEffect t' := by
  have hDown : StaysDown s.machine.signal := by
    intro g hWatched
    rw [hSignal] at hWatched
    cases hWatched
  refine ⟨⟨_, .of_quotable (quotable_profilePath hHome hQuotable)⟩,
    startsWith_profilePath hHome hAbsolute, fun line path hLine hPath hPlace => ?_⟩
  have hFound : s.machine.store.read path = .ok content := (FileTree.read_congr hPlace).trans hRead
  have hEnd := sameEnd_runLines_source hDepth hStatus hDown hLine hPath hFound
  obtain ⟨output, t', hEvaluate⟩ := evaluate_returns line s
  rw [hEvaluate] at hEnd ⊢
  generalize hRun : runLines Cli.shell (Builtin.commandLines content) s = result at hEnd
  cases hEnd with
  | returned _ hSessions =>
      obtain ⟨m, hStore, hProfile⟩ := exists_runProfile hRead hRun
      have hSame := hSessions.sameEffect
      exact ⟨output, _, t', hProfile, rfl, hSame.env, hSame.aliases, hSame.history,
        hSame.lastStatus, hSame.exitRequested, hSame.exitCode, hStore.trans hSame.store⟩

/-- A profile that sources itself, down to the limit, and leaves. -/
def selfSourcing : String :=
  "export DEPTH=\"$DEPTH.\"\n. /home/tronos/.profile\nexit 3\n"

/-- A session with that profile. -/
def profiledSession : Session FileTree :=
  Session.start ∅ ∅
    { FileTree.ofDirs ["/home/tronos"] with
      files := .ofList [(.ofText "/home/tronos/.profile", selfSourcing)] }

/-- The path of the line has a slash more than the one that the session knows. -/
theorem runProfile_sources_selfSourcing :
    profiledSession.machine.store.read profiledSession.profilePath = .ok selfSourcing ∧
      QuotesSource "'source' \"/home/tronos//.profile\"" "/home/tronos//.profile" ∧
      ∃ output t t', runProfile Cli.shell profiledSession = .ok (some output) t ∧
        evaluate Cli.shell "'source' \"/home/tronos//.profile\"" profiledSession = .ok output t' ∧
        t.SameEffect t' := by
  have hRead : profiledSession.machine.store.read profiledSession.profilePath =
      .ok selfSourcing := by rfl
  have hLine : QuotesSource "'source' \"/home/tronos//.profile\"" "/home/tronos//.profile" :=
    ⟨.single, .double, by rfl, fun _ => by decide⟩
  have hPlace : Location.ofText "/home/tronos//.profile" =
      Location.ofText profiledSession.profilePath := by decide +kernel
  obtain ⟨-, -, hEvery⟩ := runProfile_sources (s := profiledSession) rfl rfl rfl rfl
    (startsWith_slash_iff.mpr rfl) (.inl (by decide)) hRead
  exact ⟨hRead, hLine, hEvery _ _ hLine (startsWith_slash_iff.mpr rfl) hPlace⟩

end Session

end MemShell
