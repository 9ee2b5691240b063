import MemShell.Proofs.CallTrails
import MemShell.Proofs.SourceDepth

/-!
# The status that is reported and the status that is recorded

A line reports a status, and the next line finds a status in `$?`. The first is put
together from the outcomes of the trees and the output of sourced lines; the second is
written into the session at several places, by lines at any depth. They are meant to be
the same number.

They are, with one exception. Where lines are refused because the depth has reached its
limit, the refusal reports a failure and nothing is recorded, so the session keeps the
status of the command that asked for the lines: mostly a success. The next tree or line
puts that right, so what remains visible is a call whose last act was to be refused.

That is seen in the trace. Lines that are run are entered right after they were asked
for, so a trace that ends with changes that ask for lines, and no file entered after
that, is one of lines that were refused (`Refused`).

## Main results

* `reports_evaluate` — when a line returns, the two agree or its last act was refused.
* `evaluate_status` — the same read off the trace, with the refusal that causes it.
-/

namespace MemShell.Session

variable {σ : Type}

/-! ## Refusals -/

/-- The last thing that was asked for is to run lines, and they were not entered. -/
def AsksInVain (es : List Event) : Prop :=
  ∃ before c asks, es = before ++ .applied c :: asks ∧ c.sourceLines ≠ [] ∧
    ∀ e ∈ asks, ∃ code, e = .exitAsked code

/-- The last act of a call was refused, and this is what the call reports. -/
structure Refused (s : Session σ) (out : Output) (es : List Event) : Prop where
  asks : AsksInVain es
  /-- The limit of the depth was reached. -/
  full : maxDepth ≤ s.depth ∨ .entered maxDepth ∈ es
  status_eq : out.status = refusal.status
  stderr_eq : ∃ printed, out.stderr = printed ++ refusal.stderr

namespace Refused

variable {s s₁ : Session σ} {out : Output} {es fs : List Event}

theorem followedBy (h : Refused s out es) (before : Output) :
    Refused s (before.followedBy out) es := by
  obtain ⟨printed, hPrinted⟩ := h.stderr_eq
  refine ⟨h.asks, h.full, h.status_eq, before.stderr ++ printed, ?_⟩
  rw [Output.followedBy, hPrinted, String.append_assoc]

theorem prepend (h : Refused s₁ out fs) (hDepth : s₁.depth = s.depth) (es : List Event) :
    Refused s out (es ++ fs) := by
  obtain ⟨before, c, asks, rfl, hLines, hAsks⟩ := h.asks
  refine ⟨⟨es ++ before, c, asks, by simp, hLines, hAsks⟩, ?_, h.status_eq, h.stderr_eq⟩
  rcases h.full with hFull | hMem
  · exact .inl (hDepth ▸ hFull)
  · exact .inr (List.mem_append_right es hMem)

/-- To ask to leave is not to run anything. -/
theorem ask (h : Refused s out es) (code : Int) : Refused s out (es ++ [.exitAsked code]) := by
  obtain ⟨before, c, asks, rfl, hLines, hAsks⟩ := h.asks
  refine ⟨⟨before, c, asks ++ [.exitAsked code], by simp, hLines, ?_⟩, ?_, h.status_eq,
    h.stderr_eq⟩
  · intro e hMem
    rcases List.mem_append.mp hMem with hMem | hMem
    · exact hAsks e hMem
    · exact ⟨code, List.mem_singleton.mp hMem⟩
  · exact h.full.imp_right (List.mem_append_left _)

/-- The lines of a file are refused one level deeper. -/
theorem entered (h : Refused s.deeper out es) (hRoom : s.depth < maxDepth) :
    Refused s out (.entered (s.depth + 1) :: es) := by
  obtain ⟨before, c, asks, rfl, hLines, hAsks⟩ := h.asks
  refine ⟨⟨.entered (s.depth + 1) :: before, c, asks, by simp, hLines, hAsks⟩, .inr ?_,
    h.status_eq, h.stderr_eq⟩
  rcases h.full with hFull | hMem
  · have hDeepest : s.depth + 1 = maxDepth := Nat.le_antisymm hRoom hFull
    rw [hDeepest]
    exact List.mem_cons_self
  · exact List.mem_cons_of_mem _ hMem

end Refused

/-! ## Reports -/

/-- The session after the changes of which it writes down that they were made. -/
def noted (c : Changes) (s : Session σ) : Session σ :=
  { s with machine := s.machine.log (.applied c) }

/-- The session that is to end, if there is a status to end with. -/
def leaving (s : Session σ) : Option Int → Session σ
  | none => s
  | some code =>
      { s with exitRequested := true, exitCode := code,
               machine := s.machine.log (.exitAsked code) }

/-- The second session comes after the first, in the same file. -/
def Later (s t : Session σ) : Prop :=
  t.depth = s.depth ∧ ∃ es, Since s.machine t.machine es

/-- What is reported is what is recorded, unless the last act was refused. -/
def Reports (s : Session σ) (out : Output) (t : Session σ) : Prop :=
  t.depth = s.depth ∧
    ∃ es, Since s.machine t.machine es ∧ (t.lastStatus = out.status ∨ Refused s out es)

/-- Whenever the action ends well, this lies between where it starts, what it gives and
where it ends. -/
def Gives {ε S α : Type} (Q : S → α → S → Prop) (action : EStateM ε S α) (s : S) : Prop :=
  ∀ a t, action s = .ok a t → Q s a t

section Reports

variable {s s₁ t : Session σ} {out : Output}

theorem Passing.later {shell : Shell σ} {origin : Session σ} {e : Option Raised}
    (h : Passing shell origin s e t) : Later s t :=
  ⟨h.depth_eq, h.since⟩

theorem Later.trans (h : Later s s₁) (h' : Later s₁ t) : Later s t := by
  obtain ⟨hDepth, es, hSince⟩ := h
  obtain ⟨hDepth', es', hSince'⟩ := h'
  exact ⟨hDepth'.trans hDepth, _, hSince.trans hSince'⟩

theorem Reports.later (h : Reports s out t) : Later s t := by
  obtain ⟨hDepth, es, hSince, -⟩ := h
  exact ⟨hDepth, es, hSince⟩

theorem Reports.of_eq (h : Later s t) (hStatus : t.lastStatus = out.status) : Reports s out t := by
  obtain ⟨hDepth, es, hSince⟩ := h
  exact ⟨hDepth, es, hSince, .inl hStatus⟩

theorem Reports.followedBy (h : Reports s out t) (before : Output) :
    Reports s (before.followedBy out) t := by
  obtain ⟨hDepth, es, hSince, hStatus⟩ := h
  exact ⟨hDepth, es, hSince, hStatus.imp id fun hRefused => hRefused.followedBy before⟩

/-- What came before the last part of a call does not matter. -/
theorem Reports.after (h : Reports s₁ out t) (hLater : Later s s₁) : Reports s out t := by
  obtain ⟨hDepth, es, hSince, hStatus⟩ := h
  obtain ⟨hDepth₁, es₁, hSince₁⟩ := hLater
  refine ⟨hDepth.trans hDepth₁, es₁ ++ es, hSince₁.trans hSince, ?_⟩
  exact hStatus.imp id fun hRefused => hRefused.prepend hDepth₁ es₁

theorem Reports.leaving (h : Reports s out t) (code : Option Int) :
    Reports s out (t.leaving code) := by
  cases code with
  | none => exact h
  | some code =>
      obtain ⟨hDepth, es, hSince, hStatus⟩ := h
      refine ⟨hDepth, es ++ [.exitAsked code], hSince.trans (Since.log _ _), ?_⟩
      exact hStatus.imp id fun hRefused => hRefused.ask code

theorem Later.leaving (h : Later s t) (code : Option Int) : Later s (t.leaving code) := by
  cases code with
  | none => exact h
  | some code =>
      obtain ⟨hDepth, es, hSince⟩ := h
      exact ⟨hDepth, _, hSince.trans (Since.log _ _)⟩

@[simp] theorem lastStatus_leaving (s : Session σ) (code : Option Int) :
    (s.leaving code).lastStatus = s.lastStatus := by
  cases code <;> rfl

theorem later_noted (c : Changes) (s : Session σ) : Later s (s.noted c) :=
  ⟨rfl, _, Since.log _ _⟩

/-- Lines that are asked for at the limit. -/
theorem reports_refusal (hFull : maxDepth ≤ s.depth) {c : Changes} (hLines : c.sourceLines ≠ []) :
    Reports s refusal (s.noted c) := by
  have hAsks : AsksInVain [.applied c] :=
    ⟨[], c, [], rfl, hLines, fun e hMem => absurd hMem List.not_mem_nil⟩
  have hStderr : ∃ printed, refusal.stderr = printed ++ refusal.stderr :=
    ⟨"", String.empty_append.symm⟩
  exact ⟨rfl, [.applied c], Since.log _ _, .inr ⟨hAsks, .inl hFull, rfl, hStderr⟩⟩

end Reports

/-! ## Changes -/

/-- Lines that were asked for are run from here; none are run if none were asked for. -/
def Sources (shell : Shell σ) (lines : List String) (s : Session σ) :
    Option Output → Session σ → Prop
  | none, t => lines = [] ∧ t = s
  | some out, t => lines ≠ [] ∧ runLines shell lines s = .ok out t

/-- The last of the changes is the wish to leave; it gives back what it was given. -/
theorem leaving_of_eq_ok {code : Option Int} {extra extra' : Option Output} {s t : Session σ}
    (h : (match code with
      | none => return extra
      | some code => do
          modify fun s => { s with exitRequested := true, exitCode := code }
          emit (.exitAsked code)
          return extra : SessionM σ (Option Output)) s = .ok extra' t) :
    extra = extra' ∧ t = s.leaving code := by
  cases code with
  | none =>
      cases h
      exact ⟨rfl, rfl⟩
  | some code =>
      cases h
      exact ⟨rfl, rfl⟩

/-- What changes do when they can be made. -/
theorem exists_of_apply_eq_ok {shell : Shell σ} {c : Changes} {s t : Session σ}
    {extra : Option Output} (h : apply shell c s = .ok extra t) :
    ∃ s₁ s₂, Later s s₁ ∧ s₁.lastStatus = s.lastStatus ∧
      Sources shell c.sourceLines (noted c s₁) extra s₂ ∧ t = s₂.leaving c.exitCode := by
  rw [apply_eq, applyWith] at h
  obtain ⟨_, s₁, hChanged, h⟩ := exists_of_bind_eq_ok h
  cases hChanged
  obtain ⟨_, s₂, hMoved, h⟩ := exists_of_bind_eq_ok h
  obtain ⟨⟨env, m, hSame⟩, hPassing⟩ := (passes_changeDir c.chdir id).of_ok hMoved
  refine ⟨s₂, ?_⟩
  have hLater : Later s s₂ := hPassing.later
  have hStatus : s₂.lastStatus = s.lastStatus := by rw [hSame]
  clear hMoved hPassing hSame
  obtain ⟨_, s₃, hSaid, h⟩ := exists_of_bind_eq_ok h
  obtain rfl : s₂.noted c = s₃ := by
    cases hSaid
    rfl
  cases hLines : c.sourceLines with
  | nil =>
      simp only [hLines, List.isEmpty_nil] at h
      obtain ⟨extra₃, s₃, hNone, hRest⟩ := exists_of_bind_eq_ok h
      obtain ⟨rfl, hLeft⟩ := leaving_of_eq_ok hRest
      cases hNone
      exact ⟨_, hLater, hStatus, ⟨rfl, rfl⟩, hLeft⟩
  | cons line lines =>
      simp only [hLines, List.isEmpty_cons] at h
      obtain ⟨extra₃, s₃, hSourced, hRest⟩ := exists_of_bind_eq_ok h
      obtain ⟨rfl, hLeft⟩ := leaving_of_eq_ok hRest
      obtain ⟨out, s₄, hRun, hOut⟩ := exists_of_bind_eq_ok hSourced
      cases hOut
      exact ⟨s₃, hLater, hStatus, ⟨List.cons_ne_nil line lines, hRun⟩, hLeft⟩

/-! ## Trees and lines -/

/-- The session after a tree was run: its status is recorded. -/
def recorded (s : Session σ) (result : Outcome) (m : Machine σ) : Session σ :=
  { s with machine := m, lastStatus := result.status }

/-- What the changes of a tree do, if it asks for any. -/
def Follows (shell : Shell σ) (result : Outcome) (s : Session σ) (out : Output)
    (t : Session σ) : Prop :=
  out = result.output ∧ t = s ∨
    ∃ extra, apply shell result.changes s = .ok extra t ∧
      out = extra.elim result.output result.output.followedBy

/-- What a tree does when its changes can be made. -/
theorem exists_of_runTree_eq_ok {shell : Shell σ} {tree : Tree} {s t : Session σ} {out : Output}
    (h : runTree (runLines shell) shell tree s = .ok out t) :
    ∃ result m, Later s (s.recorded result m) ∧
      Follows shell result (s.recorded result m) out t := by
  unfold runTree at h
  obtain ⟨_, s₁, hStarted, h⟩ := exists_of_bind_eq_ok h
  cases hStarted
  obtain ⟨_, s₁, hGot, h⟩ := exists_of_bind_eq_ok h
  cases hGot
  obtain ⟨result, s₂, hRun, h⟩ := exists_of_bind_eq_ok h
  obtain ⟨m, hEnd, rfl⟩ := exists_of_onMachine_eq_ok hRun
  obtain ⟨_, s₃, hRecorded, h⟩ := exists_of_bind_eq_ok h
  obtain rfl : s.recorded result m = s₃ := by
    cases hRecorded
    rfl
  have hTree : Execute.run shell.registry (s.context shell) tree (s.machine.log (.started tree)) =
      .ok result m := hEnd
  obtain ⟨es, hSince, -⟩ := since_run_of_ok hTree
  refine ⟨result, m, ⟨rfl, _, hSince⟩, ?_⟩
  cases hChanges : result.changes.isEmpty with
  | true =>
      simp only [hChanges] at h
      cases h
      exact .inl ⟨rfl, rfl⟩
  | false =>
      simp only [hChanges] at h
      obtain ⟨extra, s₄, hApply, h⟩ := exists_of_bind_eq_ok h
      rw [← apply_eq] at hApply
      cases extra with
      | none =>
          cases h
          exact .inr ⟨none, hApply, rfl⟩
      | some extra =>
          cases h
          exact .inr ⟨some extra, hApply, rfl⟩

section Walk

variable {shell : Shell σ} {depth : Nat}
  (hLines : ∀ (lines : List String) (s : Session σ), lines ≠ [] → s.depth = depth →
    s.depth < maxDepth → Gives Reports (runLines shell lines) s)
include hLines

/-- Lines that were asked for are run, or they are refused at the limit. -/
theorem reports_sourced {c : Changes} (hAsked : c.sourceLines ≠ []) {s t : Session σ}
    {out : Output} (hDepth : s.depth = depth)
    (hRun : runLines shell c.sourceLines (s.noted c) = .ok out t) : Reports s out t := by
  have hSame : (s.noted c).depth = s.depth := rfl
  by_cases hFull : maxDepth ≤ s.depth
  · rw [runLines_of_full shell (hSame ▸ hFull)] at hRun
    cases hRun
    exact reports_refusal hFull hAsked
  · have hRoom : (s.noted c).depth < maxDepth := Nat.lt_of_not_le hFull
    refine Reports.after ?_ (later_noted c s)
    exact hLines c.sourceLines (s.noted c) hAsked (hSame.trans hDepth) hRoom out t hRun

/-- What is recorded for a tree is reported, unless lines report for it. -/
theorem reports_runTree (tree : Tree) {s : Session σ} (hDepth : s.depth = depth) :
    Gives Reports (runTree (runLines shell) shell tree) s := by
  intro out t h
  obtain ⟨result, m, hLater, hFollows⟩ := exists_of_runTree_eq_ok h
  rcases hFollows with ⟨rfl, rfl⟩ | ⟨extra, hApply, rfl⟩
  · exact .of_eq hLater rfl
  · obtain ⟨s₁, s₂, hLater₁, hSame, hSourced, rfl⟩ := exists_of_apply_eq_ok hApply
    have hLater' : Later s s₁ := hLater.trans hLater₁
    cases extra with
    | none =>
        obtain ⟨-, rfl⟩ := hSourced
        refine .of_eq ((hLater'.trans (later_noted _ s₁)).leaving _) ?_
        rw [lastStatus_leaving]
        exact hSame
    | some extra =>
        have hReports := reports_sourced hLines hSourced.1 (hLater'.1.trans hDepth) hSourced.2
        exact ((hReports.after hLater').followedBy _).leaving _

/-- The invariant of the loop: what was reported so far is what is recorded. -/
theorem reports_runTrees (trees : List Tree) {s₀ : Session σ} (hDepth : s₀.depth = depth) :
    ∀ (before : Output) (s : Session σ), Reports s₀ before s →
      ∀ out t, runTrees (runLines shell) shell trees before s = .ok out t → Reports s₀ out t := by
  induction trees with
  | nil =>
      intro before s hBefore out t h
      cases h
      exact hBefore
  | cons tree trees ih =>
      intro before s hBefore out t h
      cases hTree : runTree (runLines shell) shell tree s with
      | error e s₁ =>
          rw [runTrees_cons_of_error hTree] at h
          cases h
      | ok output s₁ =>
          have hLater := hBefore.later
          have hReports := reports_runTree hLines tree (hLater.1.trans hDepth) output s₁ hTree
          have hSofar : Reports s₀ (before.followedBy output) s₁ :=
            (hReports.after hLater).followedBy before
          rw [runTrees_cons_of_ok hTree] at h
          split at h
          · cases h
            exact hSofar
          · exact ih _ s₁ hSofar out t h

theorem reports_evaluate_of_runLines (line : String) {s : Session σ} (hDepth : s.depth = depth) :
    Gives Reports (evaluate shell line) s := by
  intro out t h
  rw [evaluate_eq] at h
  cases hHas : Builtin.hasCommand line with
  | false =>
      rw [evaluateWith_of_blank _ shell hHas] at h
      cases h
      exact .of_eq ⟨rfl, [], Since.refl _⟩ rfl
  | true =>
      cases hParse : s.parse line with
      | error e =>
          rw [evaluateWith_of_error _ shell hHas hParse] at h
          cases h
          exact .of_eq ⟨rfl, [], Since.refl _⟩ rfl
      | ok trees =>
          rw [evaluateWith_of_parse _ shell hHas hParse] at h
          have hStart : Reports s { status := s.lastStatus } s.renewed := by
            refine .of_eq ⟨s.depth_renewed, [], ?_⟩ s.lastStatus_renewed
            rw [Since, trace_renewed, List.append_nil]
          exact reports_runTrees hLines trees hDepth _ _ hStart out t h

end Walk

section Files

variable {shell : Shell σ} {depth : Nat}
  (hLine : ∀ (line : String) (s : Session σ), s.depth = depth → Gives Reports (evaluate shell line) s)
include hLine

/-- Lines report what the last of them reports, if there is one. -/
theorem reports_runEach (lines : List String) {s₀ : Session σ} (hDepth : s₀.depth = depth) :
    ∀ (before : Output) (s : Session σ), Later s₀ s → (lines ≠ [] ∨ Reports s₀ before s) →
      ∀ out t, runEach (evaluate shell) lines before s = .ok out t → Reports s₀ out t := by
  induction lines with
  | nil =>
      intro before s _ hBefore out t h
      cases h
      exact hBefore.resolve_left (by simp)
  | cons line lines ih =>
      intro before s hLater _ out t h
      cases hRun : evaluate shell line s with
      | error e s₁ =>
          rw [runEach_cons_of_error hRun] at h
          cases h
      | ok output s₁ =>
          have hReports := hLine line s (hLater.1.trans hDepth) output s₁ hRun
          have hSofar : Reports s₀ (before.followedBy output) s₁ :=
            (hReports.after hLater).followedBy before
          rw [runEach_cons_of_ok hRun] at h
          split at h
          · cases h
            exact hSofar
          · exact ih _ s₁ hSofar.later (.inr hSofar) out t h

theorem reports_runLines_of_evaluate {lines : List String} (hSome : lines ≠ []) {s : Session σ}
    (hDepth : s.depth + 1 = depth) (hRoom : s.depth < maxDepth) :
    Gives Reports (runLines shell lines) s := by
  intro out t h
  rw [runLines_eq, if_neg (Nat.not_le_of_lt hRoom)] at h
  obtain ⟨t', hRun, rfl⟩ := exists_of_nested_eq_ok h
  have hStart : Later s.deeper s.deeper := ⟨rfl, [], Since.refl _⟩
  obtain ⟨hSame, es, hSince, hStatus⟩ :=
    reports_runEach hLine lines hDepth {} s.deeper hStart (.inl hSome) out t' hRun
  have hDeeper : t'.depth = s.depth + 1 := hSame
  refine ⟨by simp [hDeeper], .entered (s.depth + 1) :: es, (Since.log _ _).trans hSince, ?_⟩
  exact hStatus.imp id fun hRefused => hRefused.entered hRoom

end Files

/-- The induction is on the room that is left: a line depends on the lines of files one
level deeper. -/
theorem reports_evaluate (shell : Shell σ) (room : Nat) :
    ∀ (line : String) (s : Session σ), s.room = room → Gives Reports (evaluate shell line) s := by
  induction room with
  | zero =>
      intro line s hRoom
      refine reports_evaluate_of_runLines (fun lines s' _ hDepth hLess => ?_) line rfl
      unfold Session.room at hRoom
      omega
  | succ room ih =>
      intro line s hRoom
      refine reports_evaluate_of_runLines (fun lines s' hSome hDepth hLess => ?_) line rfl
      refine reports_runLines_of_evaluate (fun line' s'' hDeeper => ih line' s'' ?_) hSome rfl hLess
      unfold Session.room at hRoom ⊢
      omega

/--
**The status of a line.** What a line reports is what the session has recorded when the
line returns, unless the last act of the line was to ask for lines at the limit of the
depth. Lines are refused there, and the session is left as it is: the refusal reports a
failure, and the status that is recorded stays that of the command that asked.
-/
theorem evaluate_status (shell : Shell σ) (s : Session σ) :
    (∀ line out t, evaluate shell line s = .ok out t →
      t.lastStatus = out.status ∨ Refused s out (eventsOf (evaluate shell line) s)) ∧
    (maxDepth ≤ s.depth → ∀ lines, runLines shell lines s = .ok refusal s) := by
  refine ⟨fun line out t h => ?_, fun hFull lines => runLines_of_full shell hFull lines⟩
  obtain ⟨-, es, hSince, hStatus⟩ := reports_evaluate shell s.room line s rfl out t h
  have hEvents : eventsOf (evaluate shell line) s = es := by
    rw [eventsOf, endState, h]
    exact hSince.newEvents_eq
  rwa [hEvents]

/-! ## A line that is refused -/

/-- The changes that ask for the line `again`. -/
def recurrence : Changes :=
  { sourceLines := ["again"] }

/-- A shell with a command that asks for a line with the same command. -/
def recurring : Shell FileTree :=
  ⟨.memory, ({} : Registry (Command FileTree)).add "again" (.pure fun _ => .changing recurrence)⟩

/-- The tree of the line `again`. -/
def recurringTree : Tree :=
  .simple ⟨"again", [], []⟩

/-- A session within so many files. -/
def within (depth : Nat) (status : Int) (trace : Array Event) : Session FileTree :=
  { env := defaultEnv, lastStatus := status, depth,
    machine := ⟨ownStore ∅, some ⟨false, false⟩, trace⟩ }

/-- The line `again` reports what the line that it asks for reports. -/
theorem evaluate_again {depth : Nat}
    (hSourced : ∀ trace, ∃ trace', runLines recurring ["again"] (within depth 0 trace) =
      .ok refusal (within depth 0 trace'))
    {s : Session FileTree} (hAliases : s.aliases.entries = []) {trace : Array Event}
    (hRenewed : s.renewed = within depth s.lastStatus trace) :
    ∃ trace', evaluate recurring "again" s = .ok refusal (within depth 0 trace') := by
  obtain ⟨trace₁, hRun⟩ : ∃ trace₁, Execute.run recurring.registry
      ((within depth s.lastStatus trace).context recurring) recurringTree
        ((within depth s.lastStatus trace).machine.log (.started recurringTree)) =
      .ok (.changing recurrence) ⟨ownStore ∅, some ⟨false, false⟩, trace₁⟩ := ⟨_, rfl⟩
  obtain ⟨trace', hLines⟩ := hSourced (trace₁.push (.applied recurrence))
  have hApply : applyWith (runLines recurring) recurring recurrence (within depth 0 trace₁) =
      .ok (some refusal) (within depth 0 trace') := by
    have hSome : (some <$> runLines recurring recurrence.sourceLines)
        (within depth 0 (trace₁.push (.applied recurrence))) =
        .ok (some refusal) (within depth 0 trace') := bind_of_ok hLines
    refine (bind_of_ok rfl).trans ((bind_of_ok rfl).trans ((bind_of_ok rfl).trans ?_))
    exact bind_of_ok hSome
  have hTree : runTree (runLines recurring) recurring recurringTree
      (within depth s.lastStatus trace) = .ok refusal (within depth 0 trace') :=
    (bind_of_ok rfl).trans ((bind_of_ok rfl).trans ((bind_of_ok (onMachine_of_ok hRun)).trans
      ((bind_of_ok rfl).trans (bind_of_ok hApply))))
  have hParse : s.parse "again" = .ok [recurringTree] := parse_of_isEmpty hAliases rfl rfl rfl
  refine ⟨trace', ?_⟩
  rw [evaluate_eq, evaluateWith_of_parse _ _ (by decide +kernel) hParse, hRenewed]
  exact (bind_of_ok hTree).trans (bind_of_ok rfl)

theorem runLines_again (room : Nat) :
    ∀ (depth : Nat) (trace : Array Event), maxDepth - depth = room →
      ∃ trace', runLines recurring ["again"] (within depth 0 trace) =
        .ok refusal (within depth 0 trace') := by
  induction room with
  | zero =>
      intro depth trace hRoom
      exact ⟨trace, runLines_of_full recurring (Nat.le_of_sub_eq_zero hRoom) _⟩
  | succ room ih =>
      intro depth trace hRoom
      have hDeeper : (within depth 0 trace).deeper =
          within (depth + 1) 0 (trace.push (.entered (depth + 1))) := rfl
      have hRenewed : (within depth 0 trace).deeper.renewed =
          within (depth + 1) 0 (trace.push (.entered (depth + 1))) := renewed_of_pos (Nat.succ_pos _)
      obtain ⟨trace', hLine⟩ := evaluate_again (fun trace => ih (depth + 1) trace (by omega)) rfl hRenewed
      refine ⟨trace', ?_⟩
      have hLess : ¬ maxDepth ≤ (within depth 0 trace).depth := by
        show ¬ maxDepth ≤ depth
        omega
      rw [runLines_eq, if_neg hLess]
      exact nested_ok (runEach_singleton hLine {})

/-- A line whose command sources itself: a failure is reported, and a success recorded. -/
theorem evaluate_status_again :
    let s := start ∅ ∅ (ownStore ∅)
    ∃ out t, evaluate recurring "again" s = .ok out t ∧ out.status = 1 ∧ t.lastStatus = 0 ∧
      Refused s out (eventsOf (evaluate recurring "again") s) := by
  intro s
  have hRenewed : s.renewed = within 0 0 #[] := rfl
  obtain ⟨trace, hLine⟩ := evaluate_again (fun trace => runLines_again 16 0 trace rfl) rfl hRenewed
  refine ⟨refusal, within 0 0 trace, hLine, rfl, rfl, ?_⟩
  exact ((evaluate_status recurring s).1 "again" _ _ hLine).resolve_left
    (show ¬ (0 : Int) = 1 by decide)

end MemShell.Session
