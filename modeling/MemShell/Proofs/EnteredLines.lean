import MemShell.Proofs.ExitRequest
import MemShell.Proofs.UnseenProfile

/-!
# The lines that are entered at the prompt

Of the inputs at the prompt, some enter a line that is then run, and some do not: a blank line
and the interrupt key. What the loop does is what running the entered lines one after the other
does, until one of them ends the loop (`Prompt.Reads`, `Prompt.loop_of_reads`); what is written
is a dialogue, in which the answers are what the lines wrote and the rest is prompts and line
feeds (`dialogue`). So inputs that enter nothing do not matter to where the loop ends
(`Prompt.loop_snd`), and what stands behind the end does not matter at all.

A line that is given as an option is run as the only line of a loop would be, without the
prompts. Also a blank line is run then, which comes to nothing, but it is a run, and a log that
shows its lowest level has a record of it (`idleStart`). There is one line that cannot be given
in this way: two dashes, which are dropped when they are attached to an option, so that there is
no line to run (`program_command_cons`).

## Main results

* `Prompt.loop_of_reads`, `Prompt.exists_reads` — the loop runs the lines that were entered.
* `Prompt.loop_snd` — where it ends is a function of these lines.
* `prompted_runLine` — one line, at the prompt and as an option.
* `loop_runs_entered` — all of it, for the arguments of the program.
-/

namespace MemShell.Cli

/-! ## Inputs -/

namespace Input

/-- The line that an input enters. A blank line is not entered. -/
def entered? : Input → Option String
  | line text => if (Text.trim text.toList).isEmpty then none else some text
  | interrupt => none

/-- What is written for an input that enters no line. -/
def idle : Input → List Write
  | line _ => []
  | interrupt => [.out "\n"]

end Input

/-- The lines that some inputs enter, in order. -/
def entered (inputs : List Input) : List String :=
  inputs.filterMap Input.entered?

theorem entered_cons_idle {input : Input} (h : input.entered? = none) (inputs : List Input) :
    entered (input :: inputs) = entered inputs :=
  List.filterMap_cons_none h

theorem entered_cons_line {input : Input} {line : String} (h : input.entered? = some line)
    (inputs : List Input) : entered (input :: inputs) = line :: entered inputs :=
  List.filterMap_cons_some h

/-- What is to be seen at the prompt: the prompt before each input, and behind the input the
next of the answers, if it enters a line. -/
def dialogue (prompt : String) : List Input → List (List Write) → List Write
  | [], _ => []
  | input :: inputs, answers =>
      match input.entered? with
      | none => .out prompt :: input.idle ++ dialogue prompt inputs answers
      | some _ => .out prompt :: answers.headD [] ++ dialogue prompt inputs answers.tail

/-! ## The loop -/

namespace Prompt

variable {σ : Type}

/-- Runs lines one after the other, whether they end the loop or not. Gives the answers, which
is what each of the lines wrote, and the prompt behind them. -/
def enterAll (shell : Shell σ) (threshold : Nat) :
    Prompt σ → List String → List (List Write) × Prompt σ
  | p, [] => ([], p)
  | p, line :: lines =>
      let (answer, p') := p.act threshold (Session.enterLine shell line)
      let (answers, last) := enterAll shell threshold p' lines
      (answer :: answers, last)

/-- The last that is written: the prompt for an input that never comes. -/
def farewell (prompt : String) (p : Prompt σ) : List Write :=
  if p.isOver then [] else [.out prompt, .out "\n"]

/-- Of the inputs `used ++ unused`, the first are read and the others are not: the lines before
each input that is read leave the loop open, and there are others only if the loop is over. -/
structure Reads (shell : Shell σ) (threshold : Nat) (p : Prompt σ) (used unused : List Input) :
    Prop where
  open_before : ∀ before after, used = before ++ after → after ≠ [] →
    (p.enterAll shell threshold (entered before)).2.isOver = false
  all_or_over : (p.enterAll shell threshold (entered used)).2.isOver = false → unused = []

variable {shell : Shell σ} {threshold : Nat}

theorem respond_of_entered {input : Input} {line : String} (h : input.entered? = some line)
    (p : Prompt σ) :
    p.respond shell threshold input = p.act threshold (Session.enterLine shell line) := by
  cases input with
  | interrupt => cases h
  | line text =>
      by_cases hBlank : (Text.trim text.toList).isEmpty = true
      · simp [Input.entered?, hBlank] at h
      · obtain rfl : text = line := by simpa [Input.entered?, hBlank] using h
        simp [respond, hBlank]

theorem respond_of_idle {input : Input} (h : input.entered? = none) (p : Prompt σ) :
    p.respond shell threshold input = (input.idle, p) := by
  cases input with
  | interrupt => rfl
  | line text =>
      by_cases hBlank : (Text.trim text.toList).isEmpty = true
      · exact respond_blank (List.isEmpty_iff.mp hBlank)
      · simp [Input.entered?, hBlank] at h

/-- One input more, and the lines go on from where it leads to. -/
theorem enterAll_entered_cons (p : Prompt σ) (input : Input) (inputs : List Input) :
    (p.enterAll shell threshold (entered (input :: inputs))).2 =
      ((p.respond shell threshold input).2.enterAll shell threshold (entered inputs)).2 := by
  cases hEntered : input.entered? with
  | none => rw [entered_cons_idle hEntered, respond_of_idle hEntered]
  | some line => rw [entered_cons_line hEntered, respond_of_entered hEntered, enterAll]

theorem dialogue_entered_cons (prompt : String) (p : Prompt σ) (input : Input)
    (inputs : List Input) :
    dialogue prompt (input :: inputs) (p.enterAll shell threshold (entered (input :: inputs))).1 =
      .out prompt :: (p.respond shell threshold input).1 ++ dialogue prompt inputs
        ((p.respond shell threshold input).2.enterAll shell threshold (entered inputs)).1 := by
  cases hEntered : input.entered? with
  | none =>
      rw [entered_cons_idle hEntered, respond_of_idle hEntered, dialogue]
      simp only [hEntered]
  | some line =>
      rw [entered_cons_line hEntered, respond_of_entered hEntered, dialogue, enterAll]
      simp only [hEntered, List.headD_cons, List.tail_cons]

theorem reads_nil_iff {p : Prompt σ} {unused : List Input} :
    Reads shell threshold p [] unused ↔ (p.isOver = false → unused = []) := by
  refine ⟨fun h => h.all_or_over, fun h => ⟨?_, h⟩⟩
  intro before after hNil hSome
  exact absurd (List.append_eq_nil_iff.mp hNil.symm).2 hSome

/-- An input is read if the loop is open, and then the others are read from where it leads. -/
theorem reads_cons_iff {p : Prompt σ} {input : Input} {used unused : List Input} :
    Reads shell threshold p (input :: used) unused ↔
      p.isOver = false ∧ Reads shell threshold (p.respond shell threshold input).2 used unused := by
  constructor
  · intro h
    refine ⟨h.open_before [] (input :: used) rfl (List.cons_ne_nil _ _), ?_, ?_⟩
    · intro before after hSplit hSome
      have hOpen := h.open_before (input :: before) after (by rw [hSplit]; rfl) hSome
      rwa [enterAll_entered_cons] at hOpen
    · have hAll := h.all_or_over
      rwa [enterAll_entered_cons] at hAll
  · rintro ⟨hOpen, h⟩
    refine ⟨?_, ?_⟩
    · intro before after hSplit hSome
      cases before with
      | nil => exact hOpen
      | cons first before =>
          obtain ⟨rfl, hRest⟩ := List.cons.inj hSplit
          rw [enterAll_entered_cons]
          exact h.open_before before after hRest hSome
    · rw [enterAll_entered_cons]
      exact h.all_or_over

/-- Without inputs the loop takes its leave. -/
theorem loop_end (prompt : String) (p : Prompt σ) :
    p.loop shell threshold prompt [] = (farewell prompt p, p) := by
  unfold loop farewell
  split <;> rfl

/-- Any inputs are read up to some point. -/
theorem exists_reads (inputs : List Input) :
    ∀ p : Prompt σ, ∃ used unused, inputs = used ++ unused ∧
      Reads shell threshold p used unused := by
  induction inputs with
  | nil => exact fun p => ⟨[], [], rfl, reads_nil_iff.mpr fun _ => rfl⟩
  | cons input inputs ih =>
      intro p
      cases hOver : p.isOver with
      | true =>
          refine ⟨[], input :: inputs, rfl, reads_nil_iff.mpr fun hOpen => ?_⟩
          rw [hOver] at hOpen
          cases hOpen
      | false =>
          obtain ⟨used, unused, hSplit, hReads⟩ := ih (p.respond shell threshold input).2
          exact ⟨input :: used, unused, by rw [hSplit]; rfl, reads_cons_iff.mpr ⟨hOver, hReads⟩⟩

/-- **The loop runs the lines that were entered**, in the inputs that it reads, and what it does
with them depends on no other inputs. -/
theorem loop_of_reads (prompt : String) {unused : List Input} (used : List Input) :
    ∀ {p : Prompt σ}, Reads shell threshold p used unused →
      p.loop shell threshold prompt (used ++ unused) =
        (dialogue prompt used (p.enterAll shell threshold (entered used)).1 ++
            farewell prompt (p.enterAll shell threshold (entered used)).2,
          (p.enterAll shell threshold (entered used)).2) := by
  induction used with
  | nil =>
      intro p hReads
      show p.loop shell threshold prompt unused = (farewell prompt p, p)
      cases hOver : p.isOver with
      | true => rw [loop_of_isOver hOver, farewell, if_pos hOver]
      | false =>
          rw [reads_nil_iff.mp hReads hOver, loop_end]
  | cons input used ih =>
      intro p hReads
      obtain ⟨hOpen, hRest⟩ := reads_cons_iff.mp hReads
      rw [List.cons_append, loop_cons hOpen, ih hRest, enterAll_entered_cons,
        dialogue_entered_cons, List.append_assoc]

/-! ### Where the loop ends -/

/-- Runs a line in a loop that is not over. -/
def enter (shell : Shell σ) (threshold : Nat) (p : Prompt σ) (line : String) : Prompt σ :=
  if p.isOver then p else (p.act threshold (Session.enterLine shell line)).2

theorem foldl_enter_of_isOver {p : Prompt σ} (hOver : p.isOver = true) (lines : List String) :
    lines.foldl (enter shell threshold) p = p := by
  induction lines with
  | nil => rfl
  | cons line lines ih => rw [List.foldl_cons, enter, if_pos hOver, ih]

/-- **Where the loop ends** depends on the lines that were entered, and on nothing else. -/
theorem loop_snd (prompt : String) (inputs : List Input) :
    ∀ p : Prompt σ, (p.loop shell threshold prompt inputs).2 =
      (entered inputs).foldl (enter shell threshold) p := by
  induction inputs with
  | nil => exact loop_nil prompt
  | cons input inputs ih =>
      intro p
      cases hOver : p.isOver with
      | true => rw [loop_of_isOver hOver, foldl_enter_of_isOver hOver]
      | false =>
          rw [loop_cons hOver, ih]
          cases hEntered : input.entered? with
          | none => rw [entered_cons_idle hEntered, respond_of_idle hEntered]
          | some line =>
              rw [entered_cons_line hEntered, List.foldl_cons, enter, if_neg (by simp [hOver]),
                respond_of_entered hEntered]

end Prompt

/-! ## One line -/

/-- A report with prompts added: one in front, and one behind for an input that never comes,
unless the line ended the loop. It lacks the writes `idle`, with which the other report ends. -/
structure Prompted (prompt : String) (ended : Bool) (idle : List Write) (ran looped : Report) :
    Prop where
  code_eq : looped.code = ran.code
  stderr_eq : Report.stderr ⟨looped.writes ++ idle, looped.code⟩ = ran.stderr
  stdout_eq : looped.stdout = prompt ++ ran.stdout ++ if ended then "" else prompt ++ "\n"

/-- If it lacks nothing, the errors are the same. -/
theorem Prompted.stderr_eq_of_nil {prompt : String} {ended : Bool} {ran looped : Report}
    (h : Prompted prompt ended [] ran looped) : looped.stderr = ran.stderr := by
  rw [← h.stderr_eq, List.append_nil]

/-- What only the option writes for a line: the record of a run, if the line is blank, because
the loop runs no blank lines. -/
def idleStart (settings : Settings) (o : Options) (line : String) : List Write :=
  if (Text.trim line.toList).isEmpty then
    writesOfStart (threshold o.debug settings.logLevel) settings.selector
  else []

theorem idleStart_eq_nil {settings : Settings} {o : Options} {line : String}
    (h : (Text.trim line.toList).isEmpty = false ∨
      Level.debug.rank < threshold o.debug settings.logLevel) :
    idleStart settings o line = [] := by
  unfold idleStart
  rcases h with hText | hHidden
  · rw [hText, if_neg Bool.false_ne_true]
  · rw [writesOfStart_of_lt hHidden, ite_self]

example : idleStart { selector := some "EpollSelector" } { debug := true } "\t" =
    [.err "DEBUG - asyncio - Using selector: EpollSelector\n"] := by
  decide +kernel

/-- The prompt behind some inputs. -/
def lastPrompt (settings : Settings) (o : Options) (inputs : List Input) : Prompt FileTree :=
  (Prompt.loop shell (threshold o.debug settings.logLevel) (settings.prompt.getD "tronsh> ")
    (openPrompt settings) inputs).2

namespace Report

variable (code : Int)

theorem stderr_append (before after : List Write) :
    stderr ⟨before ++ after, code⟩ = stderr ⟨before, code⟩ ++ stderr ⟨after, code⟩ := by
  simp [stderr, String.join_append]

theorem stdout_out_cons (text : String) (writes : List Write) :
    stdout ⟨.out text :: writes, code⟩ = text ++ stdout ⟨writes, code⟩ := by
  simp [stdout]

theorem stderr_out_cons (text : String) (writes : List Write) :
    stderr ⟨.out text :: writes, code⟩ = stderr ⟨writes, code⟩ := by
  simp [stderr]

theorem stdout_farewell {σ : Type} (prompt : String) (p : Prompt σ) :
    stdout ⟨p.farewell prompt, code⟩ = if p.isOver then "" else prompt ++ "\n" := by
  unfold Prompt.farewell
  cases p.isOver <;> simp [stdout]

theorem stderr_farewell {σ : Type} (prompt : String) (p : Prompt σ) :
    stderr ⟨p.farewell prompt, code⟩ = "" := by
  unfold Prompt.farewell
  cases p.isOver <;> simp [stderr]

theorem stdout_idleStart (settings : Settings) (o : Options) (line : String) :
    stdout ⟨idleStart settings o line, code⟩ = "" := by
  unfold idleStart
  split
  · exact stdout_writesOfStart _ _ _
  · rfl

end Report

theorem isOver_openPrompt (settings : Settings) : (openPrompt settings).isOver = false :=
  rfl

/-- A blank line changes nothing in a new session, also when it is run. -/
theorem act_blank {text : String} (hBlank : (Text.trim text.toList).isEmpty = true)
    (settings : Settings) (threshold : Nat) :
    Prompt.act threshold (Session.enterLine shell text) (openPrompt settings) =
      (writesOfStart threshold settings.selector, openPrompt settings) := by
  have hNone : Builtin.hasCommand text = false := by
    rw [Builtin.hasCommand, List.isEmpty_iff.mp hBlank]
  refine act_of_idle (enterLine_of_evaluate ?_) threshold
  rw [Session.remember, if_pos hBlank]
  exact Session.evaluateWith_of_blank _ shell hNone

/-- In a new session every line is run, but for the record that a blank one would leave. -/
theorem act_openPrompt (settings : Settings) (o : Options) (text : String) :
    Prompt.act (threshold o.debug settings.logLevel) (Session.enterLine shell text)
        (openPrompt settings) =
      (((openPrompt settings).respond shell (threshold o.debug settings.logLevel)
          (.line text)).1 ++ idleStart settings o text,
        ((openPrompt settings).respond shell (threshold o.debug settings.logLevel)
          (.line text)).2) := by
  by_cases hBlank : (Text.trim text.toList).isEmpty = true
  · rw [act_blank hBlank, Prompt.respond_blank (List.isEmpty_iff.mp hBlank), idleStart,
      if_pos hBlank]
    rfl
  · rw [idleStart_eq_nil (.inl (Bool.eq_false_iff.mpr hBlank)), List.append_nil]
    simp [Prompt.respond, hBlank]

/-- **One line** at the prompt does what it does as an option, with prompts. -/
theorem prompted_runLine (settings : Settings) (o : Options) (line : String) :
    Prompted (settings.prompt.getD "tronsh> ") (lastPrompt settings o [.line line]).isOver
      (idleStart settings o line) (runLine settings o line)
      (runPrompt settings o [.line line]) := by
  have hLoop : Prompt.loop shell (threshold o.debug settings.logLevel)
      (settings.prompt.getD "tronsh> ") (openPrompt settings) [.line line] = _ :=
    Prompt.loop_cons (isOver_openPrompt settings) _ (.line line) []
  rw [Prompt.loop_end] at hLoop
  simp only [lastPrompt, runLine, runPrompt, begin_eq, hLoop, act_openPrompt]
  generalize Prompt.respond shell _ (openPrompt settings) (.line line) = answered
  obtain ⟨answer, last⟩ := answered
  constructor
  case code_eq => rfl
  case stderr_eq =>
    simp only [Report.stderr_append, Report.stderr_out_cons, Report.stderr_farewell,
      String.append_empty, String.append_assoc]
  case stdout_eq =>
    simp only [Report.stdout_append, Report.stdout_out_cons, Report.stdout_farewell,
      Report.stdout_search, Report.stdout_idleStart, String.empty_append, String.append_empty]

/-! ## The program -/

/-- **A line as an option** is run, unless its text is dropped; no input is read. -/
theorem program_command_cons {args : List String} {o : Options}
    (hArgs : readArgs args = .ok (.run o)) (hCommand : o.command = none) (hParse : o.parse = none)
    (line : String) (settings : Settings) (unread : List Input) :
    program (("--command=" ++ line) :: args) settings unread =
      if line = "--" then none else some (runLine settings o line) := by
  have hAll : readArgs (("--command=" ++ line) :: args) =
      .ok (.run { o with command := some (.ofText line) }) := by
    rw [readArgs_command_cons, hArgs]
    simp [Except.map, Request.orElse, Options.orElse, hCommand, hParse]
  unfold program
  rw [hAll]
  by_cases hDashes : line = "--"
  · simp only [hParse, Value.ofText, if_pos hDashes]
  · simp only [hParse, Value.ofText, if_neg hDashes, runLine, begin_eq, Options.search]

theorem program_of_prompt {args : List String} {o : Options}
    (hArgs : readArgs args = .ok (.run o)) (hCommand : o.command = none) (hParse : o.parse = none)
    (settings : Settings) (inputs : List Input) :
    program args settings inputs = some (runPrompt settings o inputs) := by
  unfold program
  rw [hArgs]
  simp only [hParse, hCommand]

/--
**The loop is the run of its lines.** From any prompt, any inputs fall into those that are read
and those that are not: those that are read reach up to the first line that ends the loop, or
are all. What the loop leaves is what the lines entered among those that are read leave if they
are run one after the other, what it writes are their answers in a dialogue, and the inputs that
are not read play no part. So where the loop ends, and with which status, is the same for any
inputs that enter the same lines. For arguments of the program that lead to the prompt, with any
settings, one line at the prompt ends with the status with which it ends as an option, and prints
the same but for the prompts. The errors are the same too, unless the line is blank and the log
shows its lowest level: then the option has one record more, that of a run which the loop does
not make. All lines can be given as an option but one: with two dashes, the program breaks off.
-/
theorem loop_runs_entered {σ : Type} (shell : Shell σ) (threshold : Nat) (prompt : String)
    (settings : Settings) :
    (∀ p : Prompt σ,
      (∀ inputs, ∃ used unused, inputs = used ++ unused ∧
        p.Reads shell threshold used unused) ∧
      (∀ used unused, p.Reads shell threshold used unused →
        p.loop shell threshold prompt (used ++ unused) =
          (dialogue prompt used (p.enterAll shell threshold (entered used)).1 ++
              (p.enterAll shell threshold (entered used)).2.farewell prompt,
            (p.enterAll shell threshold (entered used)).2)) ∧
      ∀ inputs inputs', entered inputs = entered inputs' →
        (p.loop shell threshold prompt inputs).2 = (p.loop shell threshold prompt inputs').2) ∧
    ∀ (args : List String) (o : Options) (line : String),
      readArgs args = .ok (.run o) → o.command = none → o.parse = none →
      (∀ unread, program (("--command=" ++ line) :: args) settings unread =
        if line = "--" then none else some (runLine settings o line)) ∧
      program args settings [.line line] = some (runPrompt settings o [.line line]) ∧
      Prompted (settings.prompt.getD "tronsh> ") (lastPrompt settings o [.line line]).isOver
        (idleStart settings o line) (runLine settings o line)
        (runPrompt settings o [.line line]) ∧
      ((Text.trim line.toList).isEmpty = false ∨ settings.HidesDebug args →
        (runPrompt settings o [.line line]).stderr = (runLine settings o line).stderr) := by
  constructor
  · intro p
    refine ⟨fun inputs => Prompt.exists_reads inputs p,
      fun used unused hReads => Prompt.loop_of_reads prompt used hReads, ?_⟩
    intro inputs inputs' hSame
    rw [Prompt.loop_snd, Prompt.loop_snd, hSame]
  · intro args o line hArgs hCommand hParse
    have hPrompted := prompted_runLine settings o line
    refine ⟨program_command_cons hArgs hCommand hParse line settings,
      program_of_prompt hArgs hCommand hParse settings [.line line], hPrompted, fun hShown => ?_⟩
    rw [idleStart_eq_nil (hShown.imp_right fun hHidden => hHidden o hArgs)] at hPrompted
    exact hPrompted.stderr_eq_of_nil

/-! ## Two dashes -/

/-- The session in which two dashes are evaluated when they are entered first. -/
def dashesSession : Session FileTree :=
  Session.remember "--" (newSession {})

/-- Two dashes are read as the name of a command. -/
theorem evaluate_dashes :
    Session.evaluate shell "--" dashesSession =
      Session.runTrees (Session.runLinesIn shell dashesSession.room) shell
        [.simple ⟨"--", [], []⟩] { status := dashesSession.lastStatus } dashesSession.renewed := by
  have hAliases : dashesSession.aliases.entries = [] := by decide +kernel
  exact Session.evaluateWith_of_parse _ _ (by decide +kernel)
    (Session.parse_of_isEmpty hAliases rfl rfl rfl)

theorem runLine_dashes :
    (runLine {} {} "--").code = 127 ∧ (runLine {} {} "--").stderr = "--: command not found\n" := by
  have hFacts : answerOf (Session.evaluate shell "--") dashesSession =
        .ok ⟨"", "--: command not found\n", 127⟩ ∧
      (endState (Session.evaluate shell "--") dashesSession).exitRequested = false ∧
      writesOfTrace 30 (endState (Session.evaluate shell "--") dashesSession) = [] := by
    simp only [answerOf, endState, evaluate_dashes]
    decide +kernel
  cases hRun : Session.evaluate shell "--" dashesSession with
  | error e t => simp [answerOf, hRun] at hFacts
  | ok output t =>
      simp only [answerOf, endState, hRun] at hFacts
      obtain ⟨hOutput, hDown, hQuiet⟩ := hFacts
      obtain rfl := Except.ok.inj hOutput
      have hLevel : threshold false none = 30 := rfl
      simp only [runLine, begin_eq, openPrompt, Prompt.act, fresh_newSession,
        enterLine_of_evaluate hRun, hLevel, hQuiet, Prompt.code, hDown, Bool.false_eq_true, if_false]
      decide +kernel

/-- Inputs that enter nothing, a line that asks to leave, and one that is not read. -/
theorem reads_leavingLine :
    newPrompt.Reads shell 30 [.interrupt, .line "\t", .line leavingLine] [.line "echo c"] := by
  have hOpen : newPrompt.isOver = false := rfl
  have hLeft : (newPrompt.respond shell 30 (.line leavingLine)).2.isOver = true := by
    have hAsked := loop_leavingLine.1
    rw [Prompt.loop_cons hOpen, Prompt.loop_nil] at hAsked
    exact Prompt.isOver_of_exitRequested hAsked
  have hBlank : newPrompt.respond shell 30 (.line "\t") = ([], newPrompt) :=
    Prompt.respond_blank (by decide +kernel)
  refine Prompt.reads_cons_iff.mpr ⟨hOpen, Prompt.reads_cons_iff.mpr ⟨hOpen, ?_⟩⟩
  rw [show (newPrompt.respond shell 30 .interrupt).2 = newPrompt from rfl, hBlank]
  refine Prompt.reads_cons_iff.mpr ⟨hOpen, Prompt.reads_nil_iff.mpr fun hStay => ?_⟩
  rw [hLeft] at hStay
  cases hStay

/-- The loop ends behind inputs that enter nothing; two dashes are a line of the loop, but not of
the option; and a blank line leaves the same errors either way, because the log hides its run. -/
theorem loop_runs_entered_dashes :
    newPrompt.Reads shell 30 [.interrupt, .line "\t", .line leavingLine] [.line "echo c"] ∧
      (newPrompt.loop shell 30 "> "
          [.interrupt, .line "\t", .line leavingLine, .line "echo c"]).2 =
        (newPrompt.enterAll shell 30 [leavingLine]).2 ∧
      (newPrompt.loop shell 30 "> " [.line leavingLine, .interrupt]).2 =
        (newPrompt.loop shell 30 "> " [.line "\t", .line leavingLine]).2 ∧
      program ["--command=--"] {} [] = none ∧
      program [] {} [.line "--"] = some (runPrompt {} {} [.line "--"]) ∧
      (runPrompt {} {} [.line "--"]).code = 127 ∧
      (runPrompt {} {} [.line "--"]).stderr = "--: command not found\n" ∧
      program ["--command=exit 3"] {} [] = some (runLine {} {} "exit 3") ∧
      (runPrompt {} {} [.line "exit 3"]).code = (runLine {} {} "exit 3").code ∧
      (runPrompt {} {} [.line "\t"]).stderr = (runLine {} {} "\t").stderr := by
  obtain ⟨hLoop, hProgram⟩ := loop_runs_entered shell 30 "> " {}
  obtain ⟨-, hRead, hSame⟩ := hLoop newPrompt
  obtain ⟨hDropped, hPrompt, hAlike, hErrors⟩ := hProgram [] {} "--" rfl rfl rfl
  obtain ⟨hRun, -, hExit, -⟩ := hProgram [] {} "exit 3" rfl rfl rfl
  obtain ⟨-, -, -, hBlank⟩ := hProgram [] {} "\t" rfl rfl rfl
  have hReads := reads_leavingLine
  have hEntered : entered [.interrupt, .line "\t", .line leavingLine] = [leavingLine] := by
    decide +kernel
  have hLast := congrArg Prod.snd (hRead _ _ hReads)
  rw [hEntered] at hLast
  have hHidden : Settings.HidesDebug {} [] := by
    intro o hRun
    obtain rfl : {} = o := Request.run.inj (Except.ok.inj hRun)
    decide +kernel
  refine ⟨hReads, hLast, hSame _ _ (by decide +kernel), hDropped [], hPrompt, ?_, ?_, hRun [],
    hExit.code_eq, hBlank (.inr hHidden)⟩
  · exact hAlike.code_eq.trans runLine_dashes.1
  · exact (hErrors (.inl (by decide +kernel))).trans runLine_dashes.2

end MemShell.Cli
