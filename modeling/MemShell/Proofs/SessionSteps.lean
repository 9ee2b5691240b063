import MemShell.Proofs.TreeRuns
import MemShell.Session

/-!
# What a call does to its session

Evaluating a line, running lines and making changes call each other, through files
that source files. This module walks through these functions once and says what they
do to the session, one *tick* after the other: a tree is run, variables change, a
file is entered, the user asks to leave. Every later law of a call is a law of the
ticks, at any depth of sourcing, and the functions are not opened again.

Two rules of the functions cannot be seen in a single tick, because they are about the
loops around it, so a tick is told which session the call started from and carries
what the loops guarantee. A file is left only within the call that entered it, so the
depth does not fall below the depth at the start. And once the user has asked to
leave, no tree is run and the store is not asked, unless the call was made in a
session that was to end anyway.

What is let out of a call still passes the files that are left on its way, so a
*moment* is a session together with what is on its way out.

## Main results

* `Passing.lift` — a law that composes holds between the start and the end of a call
  if it holds of the ticks.
* `passes_runLines`, `passes_apply`, `passes_evaluate` — the calls are such sequences,
  and give the depth back however they end.
-/

namespace MemShell.Session

open Relation (ReflTransGen)

variable {σ α : Type}

/-! ## Ticks -/

/-- A session in the course of a call, with what is on its way out of the call. -/
structure Moment (σ : Type) where
  session : Session σ
  leaving : Option Raised

/-- If the user has asked to leave by now, that was so when the call started. -/
def Staying (origin s : Session σ) : Prop :=
  s.exitRequested = true → origin.exitRequested = true

/-- The store, if it can tell, has just said that this is a directory. -/
def Confirmed (storage : Storage σ) (path : String) (m : Machine σ) : Prop :=
  ∀ isDir, storage.isDir = some isDir →
    ∃ m₀ : Machine σ, answerOf (isDir path) m₀.host = .ok true ∧ m = m₀.after (isDir path)

/-- Whether an event is written down by a session about the changes it makes. -/
def remarks : Event → Bool
  | .applied _ | .targetVanished _ => true
  | _ => false

/-- One thing that happens to a session in a call that started from `origin`. -/
inductive Tick (shell : Shell σ) (origin : Session σ) : Moment σ → Moment σ → Prop
  /-- A tree is run to its end, and its status is recorded. -/
  | ran {s : Session σ} {tree : Tree} {o : Outcome} {m : Machine σ} (hStays : Staying origin s)
      (hRun : Execute.run shell.registry (s.context shell) tree (s.machine.log (.started tree)) =
        .ok o m) :
      Tick shell origin ⟨s, none⟩ ⟨{ s with machine := m, lastStatus := o.status }, none⟩
  /-- A tree is run and lets something out. -/
  | broke {s : Session σ} {tree : Tree} {e : Raised} {m : Machine σ} (hStays : Staying origin s)
      (hRun : Execute.run shell.registry (s.context shell) tree (s.machine.log (.started tree)) =
        .error e m) :
      Tick shell origin ⟨s, none⟩ ⟨{ s with machine := m }, some e⟩
  | changed (c : Changes) (s : Session σ) :
      Tick shell origin ⟨s, none⟩
        ⟨{ s with env := changedEnv s.env c, aliases := changedAliases s.aliases c }, none⟩
  /-- The session asks whether a directory is there. -/
  | looked {isDir : String → HostM Fault σ Bool} (hIsDir : shell.storage.isDir = some isDir)
      (path : String) {s : Session σ} (hStays : Staying origin s) :
      Tick shell origin ⟨s, none⟩
        ⟨{ s with machine := s.machine.after (isDir path) },
          (letsOut (isDir path) s.machine.host).map .fault⟩
  | moved {path : String} {s : Session σ} (hThere : Confirmed shell.storage path s.machine) :
      Tick shell origin ⟨s, none⟩ ⟨{ s with env := moveTo s.env path }, none⟩
  | said {e : Event} (hRemark : remarks e = true) (s : Session σ) :
      Tick shell origin ⟨s, none⟩ ⟨{ s with machine := s.machine.log e }, none⟩
  /-- The lines of a file are about to run. -/
  | entered {s : Session σ} (hRoom : s.depth < maxDepth) :
      Tick shell origin ⟨s, none⟩ ⟨s.deeper, none⟩
  /-- The lines of a file have been run, or something is let out of them. -/
  | left {s : Session σ} (hDeeper : origin.depth < s.depth) (e : Option Raised) :
      Tick shell origin ⟨s, e⟩ ⟨{ s with depth := s.depth - 1 }, e⟩
  /-- A line cannot be read. -/
  | misread (s : Session σ) :
      Tick shell origin ⟨s, none⟩ ⟨{ s with lastStatus := syntaxErrorStatus }, none⟩
  /-- The user asks to leave. -/
  | asked (code : Int) (s : Session σ) :
      Tick shell origin ⟨s, none⟩
        ⟨{ s with exitRequested := true, exitCode := code,
                  machine := s.machine.log (.exitAsked code) }, none⟩

/-- Ticks lead from one session to another, and the depth is given back. -/
structure Passing (shell : Shell σ) (origin s : Session σ) (e : Option Raised)
    (t : Session σ) : Prop where
  depth_eq : t.depth = s.depth
  ticks : ReflTransGen (Tick shell origin) ⟨s, none⟩ ⟨t, e⟩

theorem composes_passing (shell : Shell σ) (origin : Session σ) :
    Composes (Passing shell origin) where
  refl := fun _ => ⟨rfl, .refl⟩
  trans := fun h h' => ⟨h'.depth_eq.trans h.depth_eq, h.ticks.trans h'.ticks⟩

theorem Passing.single {shell : Shell σ} {origin s t : Session σ} {e : Option Raised}
    (hDepth : t.depth = s.depth) (hTick : Tick shell origin ⟨s, none⟩ ⟨t, e⟩) :
    Passing shell origin s e t :=
  ⟨hDepth, .single hTick⟩

/-- **A law of every call** follows from the law of its ticks. -/
theorem Passing.lift {shell : Shell σ} {origin s t : Session σ} {e : Option Raised}
    {Law : Moment σ → Moment σ → Prop} (hRefl : ∀ a, Law a a)
    (hTrans : ∀ {a b c : Moment σ}, Law a b → Law b c → Law a c)
    (hTick : ∀ {a b : Moment σ}, Tick shell origin a b → Law a b)
    (h : Passing shell origin s e t) : Law ⟨s, none⟩ ⟨t, e⟩ := by
  obtain ⟨-, hTicks⟩ := h
  generalize (⟨t, e⟩ : Moment σ) = last at hTicks
  induction hTicks with
  | refl => exact hRefl _
  | tail _ hLast ih => exact hTrans ih (hTick hLast)

/-! ## Events -/

/-- What a call adds to the trace. -/
def eventsOf (call : SessionM σ α) (s : Session σ) : List Event :=
  newEvents s.machine (endState call s).machine

/-- A tree that is run adds its start and then events of the tree. -/
theorem since_run (shell : Shell σ) (s : Session σ) (tree : Tree) :
    ∃ es, Since s.machine
        (endState (Execute.run shell.registry (s.context shell) tree)
          (s.machine.log (.started tree)))
        (.started tree :: es) ∧
      ∀ e ∈ es, e.OfTree (s.context shell).toView := by
  have hRun := Execute.treeRun_run shell.registry (s.context shell) tree
    (s.machine.log (.started tree))
  obtain ⟨es, hSince, hAll⟩ := hRun.ofTree
  exact ⟨es, (Since.log s.machine _).trans hSince, hAll⟩

theorem since_run_of_ok {shell : Shell σ} {s : Session σ} {tree : Tree} {o : Outcome}
    {m : Machine σ}
    (hRun : Execute.run shell.registry (s.context shell) tree (s.machine.log (.started tree)) =
      .ok o m) :
    ∃ es, Since s.machine m (.started tree :: es) ∧
      ∀ e ∈ es, e.OfTree (s.context shell).toView := by
  simpa only [endState, hRun] using since_run shell s tree

theorem since_run_of_error {shell : Shell σ} {s : Session σ} {tree : Tree} {e : Raised}
    {m : Machine σ}
    (hRun : Execute.run shell.registry (s.context shell) tree (s.machine.log (.started tree)) =
      .error e m) :
    ∃ es, Since s.machine m (.started tree :: es) ∧
      ∀ e ∈ es, e.OfTree (s.context shell).toView := by
  simpa only [endState, hRun] using since_run shell s tree

/-- The trace of the second moment continues that of the first. -/
def Continues (a b : Moment σ) : Prop :=
  ∃ es, Since a.session.machine b.session.machine es

theorem Continues.trans {a b c : Moment σ} (h : Continues a b) (h' : Continues b c) :
    Continues a c := by
  obtain ⟨es, hSince⟩ := h
  obtain ⟨fs, hSince'⟩ := h'
  exact ⟨_, hSince.trans hSince'⟩

theorem Tick.continues {shell : Shell σ} {origin : Session σ} {a b : Moment σ}
    (h : Tick shell origin a b) : Continues a b := by
  cases h with
  | ran _ hRun =>
      obtain ⟨es, hSince, -⟩ := since_run_of_ok hRun
      exact ⟨_, hSince⟩
  | broke _ hRun =>
      obtain ⟨es, hSince, -⟩ := since_run_of_error hRun
      exact ⟨_, hSince⟩
  | looked _ path => exact ⟨_, Since.after _ _⟩
  | said | entered | asked => exact ⟨_, Since.log _ _⟩
  | changed | moved | left | misread => exact ⟨[], Since.refl _⟩

/-- The trace only grows. -/
theorem Passing.since {shell : Shell σ} {origin s t : Session σ} {e : Option Raised}
    (h : Passing shell origin s e t) : ∃ es, Since s.machine t.machine es := by
  have hContinues : Continues ⟨s, none⟩ ⟨t, e⟩ :=
    h.lift (fun _ => ⟨[], Since.refl _⟩) Continues.trans Tick.continues
  exact hContinues

section Parts

variable {shell : Shell σ} {origin s : Session σ}

theorem passes_pure (a : α) : Leads (Passing shell origin) (pure a : SessionM σ α) s :=
  leads_of_ok rfl ((composes_passing shell origin).refl s)

theorem onMachine_of_ok {action : MachineM Raised σ α} {a : α} {m : Machine σ}
    (hRun : action s.machine = .ok a m) : onMachine action s = .ok a { s with machine := m } := by
  simp only [onMachine, hRun]

theorem onMachine_of_error {action : MachineM Raised σ α} {e : Raised} {m : Machine σ}
    (hRun : action s.machine = .error e m) :
    onMachine action s = .error e { s with machine := m } := by
  simp only [onMachine, hRun]

theorem exists_of_onMachine_eq_ok {action : MachineM Raised σ α} {a : α} {t : Session σ}
    (h : onMachine action s = .ok a t) :
    ∃ m, action s.machine = .ok a m ∧ t = { s with machine := m } := by
  cases hRun : action s.machine with
  | ok b m =>
      rw [onMachine_of_ok hRun] at h
      cases h
      exact ⟨m, rfl, rfl⟩
  | error e m =>
      rw [onMachine_of_error hRun] at h
      cases h

theorem exists_of_nested_eq_ok {action : SessionM σ α} {a : α} {t : Session σ}
    (h : nested action s = .ok a t) :
    ∃ t', action s.deeper = .ok a t' ∧ t = { t' with depth := t'.depth - 1 } := by
  cases hRun : action s.deeper with
  | ok b t' =>
      rw [nested_ok hRun] at h
      cases h
      exact ⟨t', rfl, rfl⟩
  | error e t' =>
      rw [nested_error hRun] at h
      cases h

/-- Asking the store: it answers, or its fault is let out. -/
theorem onStorage_eq (action : HostM Fault σ α) (s : Session σ) :
    onStorage action s =
      match answerOf action s.machine.host with
      | .ok a => .ok a { s with machine := s.machine.after action }
      | .error f => .error (.fault f) { s with machine := s.machine.after action } := by
  unfold onStorage onMachine Execute.onHost raising answerOf Machine.after endState
  cases action s.machine.host <;> rfl

/-! ## Loops -/

section Loops

variable {shell : Shell σ} {sourcing : List String → SessionM σ Output}
  {evaluate : String → SessionM σ Output} {s t : Session σ} {output : Output} {e : Raised}

theorem runTrees_cons_of_ok {tree : Tree} (h : runTree sourcing shell tree s = .ok output t)
    (trees : List Tree) (before : Output) :
    runTrees sourcing shell (tree :: trees) before s =
      if t.exitRequested || output.status == Outcome.interruptedStatus then
        .ok (before.followedBy output) t
      else runTrees sourcing shell trees (before.followedBy output) t := by
  refine (bind_of_ok h).trans ((bind_of_ok rfl).trans ?_)
  split <;> rfl

theorem runTrees_cons_of_error {tree : Tree} (h : runTree sourcing shell tree s = .error e t)
    (trees : List Tree) (before : Output) :
    runTrees sourcing shell (tree :: trees) before s = .error e t :=
  bind_of_error h

theorem runEach_cons_of_ok {line : String} (h : evaluate line s = .ok output t)
    (lines : List String) (before : Output) :
    runEach evaluate (line :: lines) before s =
      if t.exitRequested then .ok (before.followedBy output) t
      else runEach evaluate lines (before.followedBy output) t := by
  refine (bind_of_ok h).trans ((bind_of_ok rfl).trans ?_)
  split <;> rfl

theorem runEach_cons_of_error {line : String} (h : evaluate line s = .error e t)
    (lines : List String) (before : Output) :
    runEach evaluate (line :: lines) before s = .error e t :=
  bind_of_error h

theorem runEach_singleton {line : String} (h : evaluate line s = .ok output t)
    (before : Output) : runEach evaluate [line] before s = .ok (before.followedBy output) t := by
  rw [runEach_cons_of_ok h]
  split <;> rfl

end Loops

/-! ## Changes and trees -/

/-- Another directory and another state of the machine; all else is the same. -/
def Relocated (s t : Session σ) : Prop :=
  ∃ env m, t = { s with env, machine := m }

theorem passes_changeDir (dir : Option String) (hStays : Staying origin s) :
    Leads (fun s e t => Relocated s t ∧ Passing shell origin s e t) (changeDir shell dir) s := by
  have hC := composes_passing shell origin
  cases dir with
  | none => exact leads_of_ok rfl ⟨⟨s.env, s.machine, rfl⟩, hC.refl s⟩
  | some path =>
      have hMove : ∀ t : Session σ, Confirmed shell.storage path t.machine →
          Passing shell origin t none { t with env := moveTo t.env path } :=
        fun t hThere => .single rfl (.moved hThere)
      unfold changeDir
      cases hIsDir : shell.storage.isDir with
      | none =>
          refine leads_of_ok rfl ⟨⟨_, _, rfl⟩, hMove s ?_⟩
          intro isDir hSome
          rw [hIsDir] at hSome
          cases hSome
      | some isDir =>
          have hLook : Passing shell origin s ((letsOut (isDir path) s.machine.host).map .fault)
              { s with machine := s.machine.after (isDir path) } :=
            .single rfl (.looked hIsDir path hStays)
          have hAsk := onStorage_eq (isDir path) s
          cases hAnswer : isDir path s.machine.host with
          | error f host =>
              simp only [answerOf, letsOut, hAnswer] at hAsk hLook
              exact leads_bind_of_error hAsk ⟨⟨_, _, rfl⟩, hLook⟩
          | ok there host =>
              simp only [answerOf, letsOut, hAnswer] at hAsk hLook
              refine leads_bind_of_ok hAsk ?_
              cases there with
              | true =>
                  refine leads_of_ok rfl ⟨⟨_, _, rfl⟩, hC.trans hLook (hMove _ ?_)⟩
                  intro isDir' hSome
                  obtain rfl : isDir = isDir' := Option.some_inj.mp (hIsDir.symm.trans hSome)
                  exact ⟨s.machine, by simp only [answerOf, hAnswer], rfl⟩
              | false =>
                  exact leads_of_ok rfl
                    ⟨⟨_, _, rfl⟩, hC.trans hLook (.single rfl (.said rfl _))⟩

variable {sourcing : List String → SessionM σ Output} {depth : Nat}
  (hSourcing : ∀ (lines : List String) (s : Session σ), s.depth = depth → Staying origin s →
    Leads (Passing shell origin) (sourcing lines) s)
include hSourcing

/-- The lines among changes are run first; what follows does not depend on them. -/
theorem passes_sourced (lines : List String) {next : Option Output → SessionM σ α}
    (hNext : ∀ (extra : Option Output) (s : Session σ),
      Leads (Passing shell origin) (next extra) s)
    (hDepth : s.depth = depth) (hStays : Staying origin s) :
    Leads (Passing shell origin)
      (if lines.isEmpty then Pure.pure none >>= next else (some <$> sourcing lines) >>= next) s := by
  have hC := composes_passing shell origin
  cases lines.isEmpty with
  | true => exact hC.leads_bind (passes_pure _) fun extra s₁ _ => hNext extra s₁
  | false =>
      refine hC.leads_bind ?_ fun extra s₁ _ => hNext extra s₁
      exact hC.leads_bind (hSourcing lines s hDepth hStays) fun _ s₁ _ => passes_pure _

theorem passes_applyWith (c : Changes) (hDepth : s.depth = depth) (hStays : Staying origin s) :
    Leads (Passing shell origin) (applyWith sourcing shell c) s := by
  have hC := composes_passing shell origin
  unfold applyWith
  refine hC.leads_bind_of_ok rfl (.single rfl (.changed c s)) ?_
  have hMoves : Leads (fun s e t => Relocated s t ∧ Passing shell origin s e t)
      (changeDir shell c.chdir)
      { s with env := changedEnv s.env c, aliases := changedAliases s.aliases c } :=
    passes_changeDir c.chdir hStays
  refine hC.leads_bind hMoves.2 fun _ s₂ hRun => ?_
  obtain ⟨env, m, rfl⟩ := (hMoves.of_ok hRun).1
  refine hC.leads_bind_of_ok rfl (.single rfl (.said rfl _)) ?_
  refine passes_sourced hSourcing c.sourceLines (fun extra s₄ => ?_) hDepth hStays
  cases c.exitCode with
  | none => exact passes_pure _
  | some code =>
      exact leads_bind_of_ok rfl (leads_bind_of_ok rfl
        (leads_of_ok rfl (.single rfl (.asked code s₄))))

theorem passes_runTree (tree : Tree) (hDepth : s.depth = depth) (hStays : Staying origin s) :
    Leads (Passing shell origin) (runTree sourcing shell tree) s := by
  have hC := composes_passing shell origin
  have hEmit : emit (.started tree) s =
      .ok () { s with machine := s.machine.log (.started tree) } := rfl
  unfold runTree
  refine leads_bind_of_ok hEmit (leads_bind_of_ok rfl ?_)
  cases hRun : Execute.run shell.registry (s.context shell) tree
      (s.machine.log (.started tree)) with
  | error e m =>
      exact leads_bind_of_error (onMachine_of_error hRun) (.single rfl (.broke hStays hRun))
  | ok result m =>
      refine leads_bind_of_ok (onMachine_of_ok hRun) (leads_bind_of_ok rfl ?_)
      have hRan : Passing shell origin s none
          { s with machine := m, lastStatus := result.status } :=
        .single rfl (.ran hStays hRun)
      refine hC.trans hRan ?_
      cases result.changes.isEmpty with
      | true => exact passes_pure _
      | false =>
          refine hC.leads_bind (passes_applyWith hSourcing result.changes hDepth hStays) ?_
          intro extra s₂ _
          cases extra with
          | none => exact passes_pure _
          | some extra => exact passes_pure _

theorem passes_runTrees (trees : List Tree) :
    ∀ (before : Output) (s : Session σ), s.depth = depth → Staying origin s →
      Leads (Passing shell origin) (runTrees sourcing shell trees before) s := by
  have hC := composes_passing shell origin
  induction trees with
  | nil => exact fun before s _ _ => passes_pure _
  | cons tree trees ih =>
      intro before s hDepth hStays
      have hTree := passes_runTree hSourcing tree hDepth hStays
      unfold runTrees
      refine hC.leads_bind hTree fun output s₁ hRun => leads_bind_of_ok rfl ?_
      -- the next tree is run only if the user has not asked to leave in this one
      cases hAsked : s₁.exitRequested with
      | true => exact passes_pure _
      | false =>
          simp only [Bool.false_or]
          cases output.status == Outcome.interruptedStatus with
          | true => exact passes_pure _
          | false =>
              refine ih _ s₁ ((hTree.of_ok hRun).depth_eq.trans hDepth) fun hUp => ?_
              rw [hAsked] at hUp
              cases hUp

end Parts

/-! ## Lines -/

/-- The session with a signal of its own, unless it is within a file. -/
def renewed (s : Session σ) : Session σ :=
  if s.depth = 0 then { s with machine := { s.machine with signal := some ⟨false, false⟩ } } else s

theorem renewed_of_pos {s : Session σ} (h : 0 < s.depth) : s.renewed = s :=
  if_neg (Nat.pos_iff_ne_zero.mp h)

/-- All but the machine stays. -/
theorem renewed_withMachine (s : Session σ) (m : Machine σ) :
    { s.renewed with machine := m } = { s with machine := m } := by
  unfold renewed
  split <;> rfl

@[simp] theorem context_renewed (shell : Shell σ) (s : Session σ) :
    s.renewed.context shell = s.context shell := by
  unfold renewed
  split <;> rfl

@[simp] theorem store_renewed (s : Session σ) : s.renewed.machine.store = s.machine.store := by
  unfold renewed
  split <;> rfl

@[simp] theorem depth_renewed (s : Session σ) : s.renewed.depth = s.depth := by
  unfold renewed
  split <;> rfl

@[simp] theorem exitRequested_renewed (s : Session σ) :
    s.renewed.exitRequested = s.exitRequested := by
  unfold renewed
  split <;> rfl

@[simp] theorem exitCode_renewed (s : Session σ) : s.renewed.exitCode = s.exitCode := by
  unfold renewed
  split <;> rfl

@[simp] theorem lastStatus_renewed (s : Session σ) : s.renewed.lastStatus = s.lastStatus := by
  unfold renewed
  split <;> rfl

@[simp] theorem trace_renewed (s : Session σ) : s.renewed.machine.trace = s.machine.trace := by
  unfold renewed
  split <;> rfl

/-- The line is not run, or it is run with a renewed signal. -/
def Opening (shell : Shell σ) (origin s : Session σ) (e : Option Raised) (t : Session σ) : Prop :=
  e = none ∧ (t = s ∨ t = { s with lastStatus := syntaxErrorStatus }) ∨
    Passing shell origin s.renewed e t

/-- A line of a file does not renew the signal. -/
theorem Opening.passing {shell : Shell σ} {origin s t : Session σ} {e : Option Raised}
    (h : Opening shell origin s e t) (hDepth : 0 < s.depth) : Passing shell origin s e t := by
  rcases h with ⟨rfl, rfl | rfl⟩ | h
  · exact (composes_passing shell origin).refl _
  · exact .single rfl (.misread s)
  · rwa [renewed_of_pos hDepth] at h

section Readings

variable (sourcing : List String → SessionM σ Output) (shell : Shell σ) {line : String}
  {s : Session σ}

theorem evaluateWith_of_blank (hBlank : Builtin.hasCommand line = false) :
    evaluateWith sourcing shell line s = .ok { status := s.lastStatus } s := by
  unfold evaluateWith
  refine (bind_of_ok rfl).trans ?_
  simp only [hBlank]
  rfl

theorem evaluateWith_of_error {e : LineError} (hHas : Builtin.hasCommand line = true)
    (hParse : s.parse line = .error e) :
    evaluateWith sourcing shell line s =
      .ok { stderr := "tronsh: syntax error: " ++ e.message ++ "\n", status := syntaxErrorStatus }
        { s with lastStatus := syntaxErrorStatus } := by
  unfold evaluateWith
  refine (bind_of_ok rfl).trans ?_
  simp only [hHas, hParse]
  rfl

/-- A line that can be read is run tree by tree. -/
theorem evaluateWith_of_parse {trees : List Tree} (hHas : Builtin.hasCommand line = true)
    (hParse : s.parse line = .ok trees) :
    evaluateWith sourcing shell line s =
      runTrees sourcing shell trees { status := s.lastStatus } s.renewed := by
  unfold evaluateWith
  refine (bind_of_ok rfl).trans ?_
  simp only [hHas, hParse]
  rfl

end Readings

section Lines

variable {shell : Shell σ} {origin : Session σ}

theorem passes_evaluateWith {sourcing : List String → SessionM σ Output} {depth : Nat}
    (hSourcing : ∀ (lines : List String) (s : Session σ), s.depth = depth → Staying origin s →
      Leads (Passing shell origin) (sourcing lines) s)
    (line : String) {s : Session σ} (hDepth : s.depth = depth) (hStays : Staying origin s) :
    Leads (Opening shell origin) (evaluateWith sourcing shell line) s := by
  cases hHas : Builtin.hasCommand line with
  | false => exact leads_of_ok (evaluateWith_of_blank sourcing shell hHas) (.inl ⟨rfl, .inl rfl⟩)
  | true =>
      cases hParse : s.parse line with
      | error e =>
          refine leads_of_ok (evaluateWith_of_error sourcing shell hHas hParse) ?_
          exact .inl ⟨rfl, .inr rfl⟩
      | ok trees =>
          have hStays' : Staying origin s.renewed := by simpa only [Staying, exitRequested_renewed]
          have hTrees := passes_runTrees hSourcing trees { status := s.lastStatus } s.renewed
            (s.depth_renewed.trans hDepth) hStays'
          unfold Leads letsOut endState at hTrees ⊢
          rw [evaluateWith_of_parse sourcing shell hHas hParse]
          exact .inr hTrees

/-- Lines are evaluated one after the other, until the user asked to leave. -/
theorem passes_runEach {evaluate : String → SessionM σ Output} {depth : Nat}
    (hEvaluate : ∀ (line : String) (s : Session σ), s.depth = depth → Staying origin s →
      Leads (Passing shell origin) (evaluate line) s) (lines : List String) :
    ∀ (before : Output) (s : Session σ), s.depth = depth → Staying origin s →
      Leads (Passing shell origin) (runEach evaluate lines before) s := by
  have hC := composes_passing shell origin
  induction lines with
  | nil => exact fun before s _ _ => passes_pure _
  | cons line lines ih =>
      intro before s hDepth hStays
      have hLine := hEvaluate line s hDepth hStays
      unfold runEach
      refine hC.leads_bind hLine fun output s₁ hRun => leads_bind_of_ok rfl ?_
      cases hAsked : s₁.exitRequested with
      | true => exact passes_pure _
      | false =>
          refine ih _ s₁ ((hLine.of_ok hRun).depth_eq.trans hDepth) fun hUp => ?_
          rw [hAsked] at hUp
          cases hUp

theorem passes_nested {action : SessionM σ α} {s : Session σ} (hRoom : s.depth < maxDepth)
    (hOrigin : origin.depth ≤ s.depth) (h : Leads (Passing shell origin) action s.deeper) :
    Leads (Passing shell origin) (nested action) s := by
  have hEnter : Tick shell origin ⟨s, none⟩ ⟨s.deeper, none⟩ := .entered hRoom
  -- however the action ends, its depth is the depth that was entered, and one is taken off
  have hLeave : ∀ (e : Option Raised) (t : Session σ), Passing shell origin s.deeper e t →
      Passing shell origin s e { t with depth := t.depth - 1 } := by
    intro e t ⟨hSame, hTicks⟩
    have hDeeper : t.depth = s.depth + 1 := hSame
    refine ⟨by simp only [hDeeper, Nat.add_sub_cancel], (ReflTransGen.head hEnter hTicks).tail ?_⟩
    exact .left (by omega) e
  cases hRun : action s.deeper with
  | ok a t => exact leads_of_ok (nested_ok hRun) (hLeave _ t (h.of_ok hRun))
  | error e t => exact leads_of_error (nested_error hRun) (hLeave _ t (h.of_error hRun))

/-- The induction is on the room, which is what the depth leaves of it. -/
theorem passes_runLinesIn (room : Nat) :
    ∀ (lines : List String) (s : Session σ), s.room = room → origin.depth ≤ s.depth →
      Staying origin s → Leads (Passing shell origin) (runLinesIn shell room lines) s := by
  induction room with
  | zero => exact fun lines s _ _ _ => passes_pure _
  | succ room ih =>
      intro lines s hRoom hOrigin hStays
      unfold Session.room at hRoom
      have hDeeper : s.deeper.depth = s.depth + 1 := rfl
      refine passes_nested (by omega) hOrigin ?_
      refine passes_runEach ?_ lines {} s.deeper hDeeper hStays
      intro line s' hDepth hStays'
      refine (passes_evaluateWith ?_ line hDepth hStays').passing ?_
      · intro lines' s'' hDepth' hStays''
        exact ih lines' s'' (by unfold Session.room; omega) (by omega) hStays''
      · omega

/-! ## Calls -/

/-- Within a call the room is the room at its start, wherever the depth is the same. -/
theorem passes_runLinesIn_room (s : Session σ) (lines : List String) (t : Session σ)
    (hDepth : t.depth = s.depth) (hStays : Staying s t) :
    Leads (Passing shell s) (runLinesIn shell s.room lines) t :=
  passes_runLinesIn s.room lines t (by unfold Session.room; omega) (by omega) hStays

theorem passes_runLines (lines : List String) (s : Session σ) :
    Leads (Passing shell s) (runLines shell lines) s :=
  (passes_runLinesIn_room s lines s rfl id).congr rfl

theorem passes_apply (c : Changes) (s : Session σ) :
    Leads (Passing shell s) (apply shell c) s :=
  (passes_applyWith (passes_runLinesIn_room s) c rfl id).congr rfl

theorem passes_evaluate (line : String) (s : Session σ) :
    Leads (Opening shell s) (evaluate shell line) s :=
  (passes_evaluateWith (passes_runLinesIn_room s) line rfl id).congr rfl

end Lines

end MemShell.Session
