import MemShell.Cli
import MemShell.Proofs.RaisedSignal

/-!
# Nothing is started once the user asked to leave

The wish to leave is one of the changes that a command can ask for. It is noted deep
within a call, after the lines that the same changes ask for were run, and no loop is
told: the loops over the trees of a line, over the lines of each file that is being
sourced and over the inputs of the prompt look at a flag of the session before they go
on. That they all do is said here, from the first wish on.

A call is read off its trace. The wishes are events (`Event.asked?`), so the flag and
the status to leave with are functions of the trace, and what comes after the first
wish can be named: no tree and no command is started there. Since only trees and
questions to the store let anything out of a call, a call with a wish in it returns,
which is why the prompt ends with the status that was asked for.

The tick by tick account of a call (`SessionSteps`) guarantees that no tree is run in a
session that is to end, so the law of a single tick is short; the law of the calls
follows by composition.

## Main results

* `heeds_evaluate`, `heeds_runLines` — a call heeds the wish.
* `Cli.Prompt.loop_append` — the prompt reads no further input.
* `exit_ends_session` — the two together.
-/

namespace MemShell

/-! ## Wishes in a trace -/

/-- The status with which the user asks to leave. -/
def Event.asked? : Event → Option Int
  | .exitAsked code => some code
  | _ => none

/-- Whether a tree or a command is about to run. -/
def Event.starts : Event → Bool
  | .started _ | .dispatched _ _ _ => true
  | _ => false

/-- The statuses with which the user asked to leave, in order. -/
def wishes (es : List Event) : List Int :=
  es.filterMap Event.asked?

@[simp] theorem wishes_append (es fs : List Event) : wishes (es ++ fs) = wishes es ++ wishes fs :=
  List.filterMap_append

theorem wishes_eq_nil {es : List Event} (h : ∀ e ∈ es, e.asked? = none) : wishes es = [] :=
  List.filterMap_eq_nil_iff.mpr h

theorem wishes_ne_nil {es : List Event} {e : Event} (hMem : e ∈ es) (hAsked : e.asked? ≠ none) :
    wishes es ≠ [] := by
  obtain ⟨code, hCode⟩ := Option.ne_none_iff_exists'.mp hAsked
  exact List.ne_nil_of_mem (List.mem_filterMap.mpr ⟨e, hMem, hCode⟩)

theorem exists_asked_iff {es : List Event} :
    (∃ code, .exitAsked code ∈ es) ↔ wishes es ≠ [] := by
  constructor
  · rintro ⟨code, hMem⟩
    exact wishes_ne_nil hMem (by simp [Event.asked?])
  · intro hSome
    obtain ⟨code, hCode⟩ := List.exists_mem_of_ne_nil _ hSome
    obtain ⟨e, hMem, hAsked⟩ := List.mem_filterMap.mp hCode
    cases e with
    | exitAsked code => exact ⟨code, hMem⟩
    | _ => cases hAsked

theorem Event.asked?_of_ofTree {view : View} {e : Event} (h : e.OfTree view) : e.asked? = none := by
  cases e <;> first | rfl | exact absurd h id

/-- Nothing is started after a wish. -/
def HeedsWishes (es : List Event) : Prop :=
  es.Pairwise fun e f => e.asked? ≠ none → f.starts = false

theorem heedsWishes_of_wishes_eq_nil {es : List Event} (h : wishes es = []) : HeedsWishes es :=
  List.pairwise_iff_forall_sublist.mpr fun hSub hAsked =>
    absurd h (wishes_ne_nil (hSub.subset List.mem_cons_self) hAsked)

/-- What comes later is still, if there was a wish before. -/
theorem HeedsWishes.append {es fs : List Event} (h : HeedsWishes es) (h' : HeedsWishes fs)
    (hStill : wishes es ≠ [] → ∀ f ∈ fs, f.starts = false) : HeedsWishes (es ++ fs) :=
  List.pairwise_append.mpr
    ⟨h, h', fun _ hMem f hLater hAsked => hStill (wishes_ne_nil hMem hAsked) f hLater⟩

/-- What comes after a wish, wherever it stands. -/
theorem HeedsWishes.after {before after : List Event} {code : Int}
    (h : HeedsWishes (before ++ .exitAsked code :: after)) :
    dispatched after = [] ∧ startedTrees after = [] := by
  have hStill : ∀ f ∈ after, f.starts = false := fun f hMem =>
    (List.pairwise_cons.mp (List.pairwise_append.mp h).2.1).1 f hMem (by simp [Event.asked?])
  refine ⟨List.filterMap_eq_nil_iff.mpr fun f hMem => ?_,
    List.filterMap_eq_nil_iff.mpr fun f hMem => ?_⟩
  · have hIdle := hStill f hMem
    cases f <;> first | rfl | cases hIdle
  · have hIdle := hStill f hMem
    cases f <;> first | rfl | cases hIdle

namespace Session

variable {σ α : Type}

/-! ## Ticks -/

/-- What is on its way out comes from a session that is not to end. -/
def Moment.Unasked (a : Moment σ) : Prop :=
  a.leaving ≠ none → a.session.exitRequested = false

/-- What lies between two moments of a call, with the events that were added. -/
structure Heeded (a b : Moment σ) (es : List Event) : Prop where
  since : Since a.session.machine b.session.machine es
  requested_eq : b.session.exitRequested = (a.session.exitRequested || !(wishes es).isEmpty)
  code_eq : b.session.exitCode = (wishes es).getLast?.getD a.session.exitCode
  still : a.session.exitRequested = true → ∀ e ∈ es, e.starts = false
  heeds : HeedsWishes es
  unasked : a.Unasked → b.Unasked

theorem Heeded.requested_of_wishes {a b : Moment σ} {es : List Event} (h : Heeded a b es)
    (hAsked : a.session.exitRequested = true ∨ wishes es ≠ []) :
    b.session.exitRequested = true := by
  rw [h.requested_eq]
  simpa using hAsked

theorem Heeded.trans {a b c : Moment σ} {es fs : List Event} (h : Heeded a b es)
    (h' : Heeded b c fs) : Heeded a c (es ++ fs) where
  since := h.since.trans h'.since
  requested_eq := by
    rw [h'.requested_eq, h.requested_eq, wishes_append, Bool.or_assoc]
    cases wishes es <;> rfl
  code_eq := by
    rw [h'.code_eq, h.code_eq, wishes_append, List.getLast?_append, Option.getD_or]
  still := by
    intro hAsked e hMem
    rcases List.mem_append.mp hMem with hMem | hMem
    · exact h.still hAsked e hMem
    · exact h'.still (h.requested_of_wishes (.inl hAsked)) e hMem
  heeds := h.heeds.append h'.heeds fun hWish => h'.still (h.requested_of_wishes (.inr hWish))
  unasked := h'.unasked ∘ h.unasked

/-- A tick without a wish leaves the wishes as they are. -/
theorem Heeded.of_wishes_eq_nil {a b : Moment σ} {es : List Event}
    (hSince : Since a.session.machine b.session.machine es) (hNone : wishes es = [])
    (hRequested : b.session.exitRequested = a.session.exitRequested)
    (hCode : b.session.exitCode = a.session.exitCode)
    (hStill : a.session.exitRequested = true → ∀ e ∈ es, e.starts = false)
    (hUnasked : a.Unasked → b.Unasked) : Heeded a b es where
  since := hSince
  requested_eq := by simpa [hNone] using hRequested
  code_eq := by simpa [hNone] using hCode
  still := hStill
  heeds := heedsWishes_of_wishes_eq_nil hNone
  unasked := hUnasked

/-- Some events lie between two moments, and wishes are heeded. -/
def Heeding (a b : Moment σ) : Prop :=
  ∃ es, Heeded a b es

theorem Heeding.refl (a : Moment σ) : Heeding a a :=
  ⟨[], .of_wishes_eq_nil (Since.refl _) rfl rfl rfl (fun _ _ hMem => by cases hMem) id⟩

theorem Heeding.trans {a b c : Moment σ} (h : Heeding a b) (h' : Heeding b c) : Heeding a c := by
  obtain ⟨es, hFirst⟩ := h
  obtain ⟨fs, hSecond⟩ := h'
  exact ⟨es ++ fs, hFirst.trans hSecond⟩

section Ticks

variable {shell : Shell σ} {origin : Session σ}

theorem Moment.unasked_of_returned {s : Session σ} : Moment.Unasked ⟨s, none⟩ :=
  fun h => absurd rfl h

/-- A tree is run in a session that is not to end. -/
theorem Heeding.of_tree {s : Session σ} {tree : Tree} {es : List Event} {b : Moment σ}
    (hDown : s.exitRequested = false)
    (hSince : Since s.machine b.session.machine (.started tree :: es))
    (hTree : ∀ e ∈ es, e.OfTree (s.context shell).toView)
    (hRequested : b.session.exitRequested = s.exitRequested)
    (hCode : b.session.exitCode = s.exitCode) : Heeding ⟨s, none⟩ b := by
  refine ⟨_, .of_wishes_eq_nil hSince (wishes_eq_nil ?_) hRequested hCode ?_ ?_⟩
  · exact List.forall_mem_cons.mpr ⟨rfl, fun e hMem => Event.asked?_of_ofTree (hTree e hMem)⟩
  · exact fun hUp => absurd hUp (by simp [hDown])
  · exact fun _ _ => hRequested.trans hDown

/-- Something is written down that is neither a wish nor a start. -/
theorem Heeding.of_log {s t : Session σ} {e : Event} (hAsked : e.asked? = none)
    (hStarts : e.starts = false) (hMachine : t.machine = s.machine.log e)
    (hRequested : t.exitRequested = s.exitRequested) (hCode : t.exitCode = s.exitCode) :
    Heeding ⟨s, none⟩ ⟨t, none⟩ := by
  have hSince : Since s.machine t.machine [e] := by
    rw [hMachine]
    exact Since.log s.machine e
  refine ⟨[e], .of_wishes_eq_nil hSince (wishes_eq_nil (by simpa using hAsked)) hRequested hCode
    ?_ fun _ => Moment.unasked_of_returned⟩
  simpa using fun _ => hStarts

/-- Nothing is written down, and the wishes are as they were. -/
theorem Heeding.of_trace {s t : Session σ} {e : Option Raised}
    (hTrace : t.machine.trace = s.machine.trace)
    (hRequested : t.exitRequested = s.exitRequested) (hCode : t.exitCode = s.exitCode) :
    Heeding ⟨s, e⟩ ⟨t, e⟩ := by
  have hSince : Since s.machine t.machine [] := by
    rw [Since, hTrace, List.append_nil]
  refine ⟨[], .of_wishes_eq_nil hSince rfl hRequested hCode (fun _ _ hMem => by cases hMem) ?_⟩
  exact fun hBefore hLeaving => hRequested.trans (hBefore hLeaving)

theorem Heeding.of_tick (hOrigin : origin.exitRequested = false) {a b : Moment σ}
    (h : Tick shell origin a b) : Heeding a b := by
  -- a tree is run, and the store is asked, only in a session that is not to end
  have hDown : ∀ {s : Session σ}, Staying origin s → s.exitRequested = false :=
    fun hStays => Bool.eq_false_iff.mpr fun hUp => by simp [hStays hUp] at hOrigin
  cases h with
  | ran hStays hRun =>
      obtain ⟨es, hSince, hTree⟩ := since_run_of_ok hRun
      exact .of_tree (hDown hStays) hSince hTree rfl rfl
  | broke hStays hRun =>
      obtain ⟨es, hSince, hTree⟩ := since_run_of_error hRun
      exact .of_tree (hDown hStays) hSince hTree rfl rfl
  | looked _ path hStays =>
      refine ⟨_, .of_wishes_eq_nil (Since.after _ _) (wishes_eq_nil ?_) rfl rfl ?_ ?_⟩
      · intro e hMem
        obtain ⟨note, -, rfl⟩ := List.mem_map.mp hMem
        rfl
      · exact fun hUp => absurd hUp (by simp [hDown hStays])
      · exact fun _ _ => hDown hStays
  | @said e hRemark =>
      have hPlain : e.asked? = none ∧ e.starts = false := by
        cases e <;> first | exact ⟨rfl, rfl⟩ | cases hRemark
      exact .of_log hPlain.1 hPlain.2 rfl rfl rfl
  | entered => exact .of_log rfl rfl rfl rfl rfl
  | changed | moved | left | misread => exact .of_trace rfl rfl rfl
  | asked code s =>
      refine ⟨[.exitAsked code], ?_⟩
      exact {
        since := Since.log s.machine _
        requested_eq := by simp [wishes, Event.asked?]
        code_eq := rfl
        still := fun _ => by simp [Event.starts]
        heeds := List.pairwise_singleton _ _
        unasked := fun _ => Moment.unasked_of_returned }

end Ticks

/-! ## Calls -/

/-- A call heeds the wishes to leave: the session is to end if there was one, with the
status of the last; after the first one no tree and no command is started; and the call
returns. -/
structure HeedsExit (call : SessionM σ α) (s : Session σ) : Prop where
  requested_iff : (endState call s).exitRequested = true ↔
    ∃ code, .exitAsked code ∈ eventsOf call s
  code_eq : (endState call s).exitCode = (wishes (eventsOf call s)).getLast?.getD s.exitCode
  stops : ∀ before code after, eventsOf call s = before ++ .exitAsked code :: after →
    dispatched after = [] ∧ startedTrees after = []
  returns : (endState call s).exitRequested = true → letsOut call s = none

theorem HeedsExit.of_heeding {call : SessionM σ α} {s : Session σ}
    (hDown : s.exitRequested = false)
    (h : Heeding ⟨s, none⟩ ⟨endState call s, letsOut call s⟩) : HeedsExit call s := by
  obtain ⟨es, hHeeded⟩ := h
  have hEvents : eventsOf call s = es := hHeeded.since.newEvents_eq
  refine ⟨?_, ?_, ?_, ?_⟩
  · have hRequested : (endState call s).exitRequested = !(wishes es).isEmpty := by
      simpa [hDown] using hHeeded.requested_eq
    rw [hRequested, hEvents, exists_asked_iff]
    simp
  · rw [hEvents]
    exact hHeeded.code_eq
  · intro before code after hSplit
    rw [← hEvents, hSplit] at hHeeded
    exact hHeeded.heeds.after
  · intro hUp
    cases hOut : letsOut call s with
    | none => rfl
    | some e =>
        have hUnasked : (endState call s).exitRequested = false :=
          hHeeded.unasked Moment.unasked_of_returned (by simp [hOut])
        simp [hUnasked] at hUp

theorem heeds_runLines (shell : Shell σ) (lines : List String) {s : Session σ}
    (hDown : s.exitRequested = false) : HeedsExit (runLines shell lines) s := by
  have hPassing : Passing shell s s _ _ := passes_runLines lines s
  exact .of_heeding hDown (hPassing.lift Heeding.refl Heeding.trans (Heeding.of_tick hDown))

theorem heeds_evaluate (shell : Shell σ) (line : String) {s : Session σ}
    (hDown : s.exitRequested = false) : HeedsExit (evaluate shell line) s := by
  have hLine : Opening shell s s _ _ := passes_evaluate line s
  refine .of_heeding hDown ?_
  rcases hLine with ⟨hNone, hSame | hSame⟩ | hPassing
  · rw [hNone, hSame]
    exact .refl _
  · rw [hNone, hSame]
    exact .of_trace rfl rfl rfl
  · refine Heeding.trans ?_ (hPassing.lift Heeding.refl Heeding.trans (Heeding.of_tick hDown))
    exact .of_trace s.trace_renewed s.exitRequested_renewed s.exitCode_renewed

end Session

/-! ## The prompt -/

namespace Cli.Prompt

variable {σ : Type} {shell : Shell σ} {threshold : Nat}

/-- What broke the loop off came from a session that is not to end. -/
def Sound (p : Prompt σ) : Prop :=
  p.broken ≠ none → p.session.exitRequested = false

theorem exitRequested_remember (line : String) (s : Session σ) :
    (Session.remember line s).exitRequested = s.exitRequested := by
  unfold Session.remember
  split <;> rfl

/-- A line that lets something out does not leave a session that is to end. -/
theorem exitRequested_of_enterLine {line : String} {s t : Session σ} {e : Raised}
    (hDown : s.exitRequested = false) (hRun : Session.enterLine shell line s = .error e t) :
    t.exitRequested = false := by
  have hStart : (Session.remember line s).exitRequested = false :=
    (exitRequested_remember line s).trans hDown
  have hLine : Session.evaluate shell line (Session.remember line s) = .error e t := by
    have hEnter : Session.evaluateLine shell line (Session.remember line s) = .error e t := hRun
    unfold Session.evaluateLine at hEnter
    split at hEnter
    · cases hEnter
    · exact hEnter
  have hReturns := (Session.heeds_evaluate shell line hStart).returns
  simp only [endState, letsOut, hLine] at hReturns
  exact Bool.eq_false_iff.mpr fun hUp => by cases hReturns hUp

theorem sound_act {p : Prompt σ} {action : SessionM σ Output}
    (hOut : ∀ e t, action { p.session with machine := { p.session.machine with trace := #[] } } =
      .error e t → t.exitRequested = false) : (p.act threshold action).2.Sound := by
  unfold act
  split
  · exact fun hBroken => absurd rfl hBroken
  · rename_i e t hRun
    exact fun _ => hOut e t hRun

theorem sound_respond {p : Prompt σ} (hOver : p.isOver = false) (input : Input) :
    (p.respond shell threshold input).2.Sound := by
  obtain ⟨hDown, -⟩ := Bool.or_eq_false_iff.mp hOver
  have hSound : p.Sound := fun _ => hDown
  cases input with
  | interrupt => exact hSound
  | line text =>
      show (if (Text.trim text.toList).isEmpty then ([], p)
        else p.act threshold (Session.enterLine shell text)).2.Sound
      split
      · exact hSound
      · refine sound_act fun e t hRun => exitRequested_of_enterLine ?_ hRun
        exact hDown

theorem loop_cons {p : Prompt σ} (hOver : p.isOver = false) (prompt : String) (input : Input)
    (inputs : List Input) :
    loop shell threshold prompt p (input :: inputs) =
      (.out prompt :: (p.respond shell threshold input).1 ++
          (loop shell threshold prompt (p.respond shell threshold input).2 inputs).1,
        (loop shell threshold prompt (p.respond shell threshold input).2 inputs).2) := by
  simp [loop, hOver]

theorem isOver_of_exitRequested {p : Prompt σ} (h : p.session.exitRequested = true) :
    p.isOver = true := by
  simp [isOver, h]

theorem loop_nil (prompt : String) (p : Prompt σ) :
    (loop shell threshold prompt p []).2 = p := by
  unfold loop
  split <;> rfl

/-- The loop keeps to it from input to input. -/
theorem sound_loop (prompt : String) (inputs : List Input) :
    ∀ p : Prompt σ, p.Sound → (loop shell threshold prompt p inputs).2.Sound := by
  induction inputs with
  | nil =>
      intro p hSound
      rwa [loop_nil]
  | cons input inputs ih =>
      intro p hSound
      cases hOver : p.isOver with
      | true => rwa [loop_of_isOver hOver]
      | false =>
          rw [loop_cons hOver]
          exact ih _ (sound_respond hOver input)

/-- **No further input is read** once the user asked to leave: what the loop does with
some inputs that end so, it does with any that follow them. -/
theorem loop_append (prompt : String) (used rest : List Input) :
    ∀ p : Prompt σ, (loop shell threshold prompt p used).2.session.exitRequested = true →
      loop shell threshold prompt p (used ++ rest) = loop shell threshold prompt p used := by
  induction used with
  | nil =>
      intro p hAsked
      rw [loop_nil] at hAsked
      rw [loop_of_isOver (isOver_of_exitRequested hAsked),
        loop_of_isOver (isOver_of_exitRequested hAsked)]
  | cons input used ih =>
      intro p hAsked
      cases hOver : p.isOver with
      | true => rw [loop_of_isOver hOver, loop_of_isOver hOver]
      | false =>
          rw [loop_cons hOver] at hAsked ⊢
          rw [List.cons_append, loop_cons hOver, ih _ hAsked]

theorem code_of_exitRequested {p : Prompt σ} (hSound : p.Sound)
    (h : p.session.exitRequested = true) : p.code = p.session.exitCode := by
  unfold code
  cases hBroken : p.broken with
  | none => simp [h]
  | some e =>
      have hDown := hSound (by simp [hBroken])
      simp [hDown] at h

end Cli.Prompt

/--
**The wish to leave ends the session.** From a session that is not to end, a line and
the lines of a file heed every wish to leave, at whatever depth it is asked for. And at
the prompt, if the user has asked to leave after some inputs, none that follow are read,
and the program ends with the status that was asked for.
-/
theorem exit_ends_session {σ : Type} (shell : Shell σ) :
    (∀ s : Session σ, s.exitRequested = false →
      (∀ line, Session.HeedsExit (Session.evaluate shell line) s) ∧
        ∀ lines, Session.HeedsExit (Session.runLines shell lines) s) ∧
    ∀ (threshold : Nat) (prompt : String) (p : Cli.Prompt σ) (inputs : List Cli.Input),
      p.broken = none →
      (p.loop shell threshold prompt inputs).2.session.exitRequested = true →
      (∀ rest, p.loop shell threshold prompt (inputs ++ rest) =
        p.loop shell threshold prompt inputs) ∧
        (p.loop shell threshold prompt inputs).2.code =
          (p.loop shell threshold prompt inputs).2.session.exitCode := by
  constructor
  · intro s hDown
    exact ⟨fun line => Session.heeds_evaluate shell line hDown,
      fun lines => Session.heeds_runLines shell lines hDown⟩
  · intro threshold prompt p inputs hWhole hAsked
    refine ⟨fun rest => Cli.Prompt.loop_append prompt inputs rest p hAsked, ?_⟩
    have hSound : p.Sound := fun hBroken => absurd hWhole hBroken
    exact Cli.Prompt.code_of_exitRequested (Cli.Prompt.sound_loop prompt inputs p hSound) hAsked

/-! ## A line that asks to leave -/

/-- A line that is entered and evaluated to its end. -/
theorem enterLine_of_evaluate {σ : Type} {shell : Shell σ} {line : String} {out : Output}
    {s t : Session σ} (hRun : Session.evaluate shell line (Session.remember line s) = .ok out t) :
    Session.enterLine shell line s = .ok out t := by
  refine (bind_of_ok rfl).trans ?_
  simp only [Session.evaluateLine, hRun]

/-- A line at the prompt that is evaluated to its end. -/
theorem respond_of_evaluate {σ : Type} {shell : Shell σ} (threshold : Nat) {p : Cli.Prompt σ}
    {text : String} (hText : (Text.trim text.toList).isEmpty = false) {out : Output} {t : Session σ}
    (hRun : Session.evaluate shell text (Session.remember text
      { p.session with machine := { p.session.machine with trace := #[] } }) = .ok out t) :
    (p.respond shell threshold (.line text)).2 = ⟨t, out.status, none, p.selector⟩ := by
  simp only [Cli.Prompt.respond, hText, Cli.Prompt.act, enterLine_of_evaluate hRun,
    Bool.false_eq_true, if_false]

def leavingLine : String :=
  "echo a; exit 3; echo b"

/-- The trees of that line. -/
def leavingTrees : List Tree :=
  [.simple ⟨"echo", ["a"], []⟩, .simple ⟨"exit", ["3"], []⟩, .simple ⟨"echo", ["b"], []⟩]

theorem evaluate_leavingLine {s : Session FileTree} (hAliases : s.aliases.entries = []) :
    Session.evaluate Cli.shell leavingLine s =
      Session.runTrees (Session.runLinesIn Cli.shell s.room) Cli.shell leavingTrees
        { status := s.lastStatus } s.renewed :=
  Session.evaluateWith_of_parse _ _ (by decide +kernel)
    (Session.parse_of_isEmpty hAliases rfl rfl rfl)

/-- A prompt in a new session. -/
def newPrompt : Cli.Prompt FileTree :=
  { session := Session.start ∅ ∅ (Session.ownStore ∅) }

/-- The session in which the line is evaluated when it is entered at that prompt. -/
def leavingSession : Session FileTree :=
  Session.remember leavingLine
    { newPrompt.session with machine := { newPrompt.session.machine with trace := #[] } }

theorem loop_leavingLine :
    let last := (newPrompt.loop Cli.shell 30 "tronsh> " [.line leavingLine]).2
    last.session.exitRequested = true ∧ last.session.exitCode = 3 := by
  have hEnd : letsOut (Session.evaluate Cli.shell leavingLine) leavingSession = none ∧
      (endState (Session.evaluate Cli.shell leavingLine) leavingSession).exitRequested = true ∧
      (endState (Session.evaluate Cli.shell leavingLine) leavingSession).exitCode = 3 := by
    have hAliases : leavingSession.aliases.entries = [] := by decide +kernel
    simp only [letsOut, endState, evaluate_leavingLine hAliases]
    decide +kernel
  cases hRun : Session.evaluate Cli.shell leavingLine leavingSession with
  | error e t => simp [letsOut, hRun] at hEnd
  | ok out t =>
      simp only [letsOut, endState, hRun] at hEnd
      have hOver : newPrompt.isOver = false := rfl
      have hRespond : (newPrompt.respond Cli.shell 30 (.line leavingLine)).2 =
          ⟨t, out.status, none, none⟩ := respond_of_evaluate 30 (by decide +kernel) hRun
      rw [Cli.Prompt.loop_cons hOver, Cli.Prompt.loop_nil, hRespond]
      exact hEnd.2

/-- Of the three commands of the line, the second asks to leave, and the third is not
called. -/
theorem exit_ends_session_leavingLine :
    newPrompt.session.exitRequested = false ∧ newPrompt.broken = none ∧
      dispatched (Session.eventsOf (Session.evaluate Cli.shell leavingLine) newPrompt.session) =
        [("echo", ["a"]), ("exit", ["3"])] ∧
      Session.HeedsExit (Session.evaluate Cli.shell leavingLine) newPrompt.session ∧
      (∀ rest, newPrompt.loop Cli.shell 30 "tronsh> " (.line leavingLine :: rest) =
        newPrompt.loop Cli.shell 30 "tronsh> " [.line leavingLine]) ∧
      (newPrompt.loop Cli.shell 30 "tronsh> " [.line leavingLine]).2.code = 3 := by
  have hCalls :
      dispatched (Session.eventsOf (Session.evaluate Cli.shell leavingLine) newPrompt.session) =
        [("echo", ["a"]), ("exit", ["3"])] := by
    have hLine := evaluate_leavingLine (s := newPrompt.session) rfl
    simp only [Session.eventsOf, endState, hLine]
    decide +kernel
  obtain ⟨hAsked, hStatus⟩ := loop_leavingLine
  obtain ⟨hCall, hPrompt⟩ := exit_ends_session Cli.shell
  obtain ⟨hRest, hCode⟩ := hPrompt 30 "tronsh> " newPrompt _ rfl hAsked
  exact ⟨rfl, rfl, hCalls, (hCall _ rfl).1 _, hRest, hCode.trans hStatus⟩

end MemShell
