import MemShell.Builtin
import MemShell.Proofs.CallTrails

/-!
# Nothing is started once the signal is up

The signal is looked at in several places: before a tree, before each stage of a
pipeline and before a right side. Nobody looks at it between the trees of a line or
between the lines of a file, and none of these places knows of the others. What they
amount to together is said here.

A run is told as a list of *moves*. A command gets its turn, from the reading of its
inputs to the writing of its outputs; or the session asks the store something by
itself; or something is written down. The moves are *played* from a machine by the
functions that run commands, so a list of moves that leads from the machine before a
call to the machine after it says what the call did, and in which order. The signal
may come up during any move. All that has to be seen of a call is that a command gets
its turn with the signal down only (`Played`): as nothing lowers the signal between
two turns, the first turn after which it is up is the last one.

## Main results

* `sublist_dispatched_replay` — the commands that are called are among those that get a
  turn.
* `turns_eq_nil` — from a machine with the signal up, no command gets a turn.
* `signal_ends_calls` — the two together, for a tree and for a line.
-/

namespace MemShell

open Execute

/-! ## Commands in a trace -/

/-- The command that is about to run, with its arguments. -/
def Event.call? : Event → Option (String × List String)
  | .dispatched command args _ => some (command, args)
  | _ => none

/-- The tree that is about to be run. -/
def Event.tree? : Event → Option Tree
  | .started tree => some tree
  | _ => none

theorem Event.call?_of_isQuiet {e : Event} (h : e.isQuiet = true) : e.call? = none := by
  cases e <;> first | rfl | cases h

/-- The commands that were called, in order. -/
def dispatched (es : List Event) : List (String × List String) :=
  es.filterMap Event.call?

/-- The trees that were run, in order. -/
def startedTrees (es : List Event) : List Tree :=
  es.filterMap Event.tree?

/-- How a command is called. -/
def Simple.invocation (c : Simple) : String × List String :=
  (c.command, c.args)

@[simp] theorem dispatched_append (es fs : List Event) :
    dispatched (es ++ fs) = dispatched es ++ dispatched fs :=
  List.filterMap_append

@[simp] theorem startedTrees_append (es fs : List Event) :
    startedTrees (es ++ fs) = startedTrees es ++ startedTrees fs :=
  List.filterMap_append

theorem dispatched_eq_nil {es : List Event} (h : ∀ e ∈ es, e.isQuiet = true) :
    dispatched es = [] :=
  List.filterMap_eq_nil_iff.mpr fun e he => Event.call?_of_isQuiet (h e he)

section Moves

variable {σ : Type}

/-- A command that is called leaves one entry of that kind. -/
theorem dispatched_called (registry : Registry (Command σ)) (ctx : Context σ) (c : Simple)
    (command : Command σ) (m : Machine σ) :
    ∃ es, Since m (called registry ctx c command m) es ∧ dispatched es = [c.invocation] := by
  obtain ⟨notes, hSince⟩ := since_called registry ctx c command m
  have hNotes : dispatched (notes.map .noted) = [] :=
    dispatched_eq_nil fun e he => by
      obtain ⟨note, -, rfl⟩ := List.mem_map.mp he
      rfl
  refine ⟨_, hSince, ?_⟩
  rw [dispatched_append]
  show (c.invocation :: dispatched (notes.map .noted)) ++ [] = _
  rw [hNotes]
  rfl

/-- At its turn a command is called at most once, and nothing else is. -/
theorem dispatched_of_simpleRun {registry : Registry (Command σ)} {ctx : Context σ} {c : Simple}
    {m m' : Machine σ} {e : Option Raised} (h : SimpleRun registry ctx c m e m') :
    ∃ es, Since m m' es ∧ (dispatched es).Sublist [c.invocation] := by
  cases h with
  | unstarted hReads =>
      obtain ⟨es, hSince, hQuiet⟩ := quietly_of_reads hReads
      exact ⟨es, hSince, by simp [dispatched_eq_nil hQuiet]⟩
  | met stdin hReads _ _ hWrites =>
      obtain ⟨es, hSince, hQuiet⟩ := quietly_of_reads hReads
      obtain ⟨fs, hSince', hCalled⟩ := dispatched_called registry { ctx with stdin } c _ _
      obtain ⟨gs, hSince'', hQuiet'⟩ := quietly_of_writes hWrites
      refine ⟨_, (hSince.trans hSince').trans hSince'', ?_⟩
      simp [dispatched_eq_nil hQuiet, hCalled, dispatched_eq_nil hQuiet']
  | letOut stdin hReads =>
      obtain ⟨es, hSince, hQuiet⟩ := quietly_of_reads hReads
      obtain ⟨fs, hSince', hCalled⟩ := dispatched_called registry { ctx with stdin } c _ _
      refine ⟨_, hSince.trans hSince', ?_⟩
      simp [dispatched_eq_nil hQuiet, hCalled]

/-! ## Moves -/

/-- One thing that happens between two looks at the signal. -/
inductive Move (σ : Type) where
  /-- Something is written down that is not a call. -/
  | say (e : Event) (hSilent : e.call? = none)
  /-- The session asks the store. -/
  | ask (question : HostM Fault σ Bool)
  /-- A command reads its inputs, is called and writes its outputs. -/
  | turn (ctx : Context σ) (c : Simple)

namespace Move

/-- The command whose turn it is. -/
def command? : Move σ → Option Simple
  | turn _ c => some c
  | _ => none

/-- What a move does. -/
def play (registry : Registry (Command σ)) : Move σ → Machine σ → Machine σ
  | say e _, m => m.log e
  | ask question, m => m.after question
  | turn ctx c, m => endState (runSimple registry ctx c) m

end Move

/-- The commands that get a turn, in order. -/
def turns (moves : List (Move σ)) : List Simple :=
  moves.filterMap Move.command?

/-- What moves do one after the other. -/
def replay (registry : Registry (Command σ)) : List (Move σ) → Machine σ → Machine σ
  | [], m => m
  | move :: moves, m => replay registry moves (move.play registry m)

/-- Whoever gets a turn gets it with the signal down. -/
def Heeded (registry : Registry (Command σ)) : List (Move σ) → Machine σ → Prop
  | [], _ => True
  | move :: moves, m =>
      (move.command?.isSome = true → m.isStopped = false) ∧
        Heeded registry moves (move.play registry m)

/-- An action that does not lower the signal. -/
def KeepsUp (action : HostM Fault σ Bool) : Prop :=
  ∀ m : Machine σ, m.isStopped = true → (m.after action).isStopped = true

@[simp] theorem turns_append (moves moves' : List (Move σ)) :
    turns (moves ++ moves') = turns moves ++ turns moves' :=
  List.filterMap_append

section Replay

variable (registry : Registry (Command σ))

theorem replay_append (moves moves' : List (Move σ)) :
    ∀ m, replay registry (moves ++ moves') m =
      replay registry moves' (replay registry moves m) := by
  induction moves with
  | nil => exact fun m => rfl
  | cons move moves ih => exact fun m => ih _

theorem heeded_append (moves moves' : List (Move σ)) :
    ∀ m, Heeded registry (moves ++ moves') m ↔
      Heeded registry moves m ∧ Heeded registry moves' (replay registry moves m) := by
  induction moves with
  | nil => simp [Heeded, replay]
  | cons move moves ih =>
      intro m
      simp only [List.cons_append, Heeded, replay, ih, and_assoc]

/-- The commands that are called in a move are among those that get a turn in it. -/
theorem sublist_dispatched_play (move : Move σ) (m : Machine σ) :
    ∃ es, Since m (move.play registry m) es ∧
      (dispatched es).Sublist ((turns [move]).map Simple.invocation) := by
  cases move with
  | say e hSilent =>
      exact ⟨[e], Since.log m e, by simp [dispatched, hSilent]⟩
  | ask question =>
      obtain ⟨es, hSince, hQuiet⟩ := Quietly.after m question
      exact ⟨es, hSince, by simp [dispatched_eq_nil hQuiet]⟩
  | turn ctx c => exact dispatched_of_simpleRun (simpleRun_runSimple registry ctx c m)

theorem sublist_dispatched_replay (moves : List (Move σ)) :
    ∀ m, ∃ es, Since m (replay registry moves m) es ∧
      (dispatched es).Sublist ((turns moves).map Simple.invocation) := by
  induction moves with
  | nil => exact fun m => ⟨[], Since.refl m, .refl _⟩
  | cons move moves ih =>
      intro m
      obtain ⟨es, hSince, hCalls⟩ := sublist_dispatched_play registry move m
      obtain ⟨fs, hSince', hCalls'⟩ := ih (move.play registry m)
      refine ⟨es ++ fs, hSince.trans hSince', ?_⟩
      rw [dispatched_append, ← List.singleton_append, turns_append, List.map_append]
      exact hCalls.append hCalls'

end Replay

variable {registry : Registry (Command σ)}

/-- From a machine with the signal up, no command gets a turn. The induction is on the
moves: what is not a turn leaves the signal up, and a turn cannot come next. -/
theorem turns_eq_nil {moves : List (Move σ)} :
    ∀ {m : Machine σ}, (∀ question, .ask question ∈ moves → KeepsUp question) →
      Heeded registry moves m → m.isStopped = true → turns moves = [] := by
  induction moves with
  | nil => exact fun _ _ _ => rfl
  | cons move moves ih =>
      rintro m hKeeps ⟨hDown, hHeeded⟩ hUp
      have hKeeps' : ∀ question, .ask question ∈ moves → KeepsUp question :=
        fun question hMem => hKeeps question (List.mem_cons_of_mem _ hMem)
      cases move with
      | say e hSilent => exact ih hKeeps' hHeeded hUp
      | ask question => exact ih hKeeps' hHeeded (hKeeps question List.mem_cons_self m hUp)
      | turn ctx c => exact absurd (hDown rfl) (by simp [hUp])

/-- These moves lead from one machine to another, commands get their turns with the
signal down, and the session asks such questions only. -/
structure Played (registry : Registry (Command σ)) (Asks : HostM Fault σ Bool → Prop)
    (moves : List (Move σ)) (m m' : Machine σ) : Prop where
  replayed : replay registry moves m = m'
  heeded : Heeded registry moves m
  asked : ∀ question, .ask question ∈ moves → Asks question

/-- Wherever the signal is up, no command gets a turn and none is called from there on. -/
def Halts (registry : Registry (Command σ)) (moves : List (Move σ)) (m : Machine σ) : Prop :=
  ∀ before after, moves = before ++ after → (replay registry before m).isStopped = true →
    turns after = [] ∧
      dispatched (newEvents (replay registry before m) (replay registry moves m)) = []

namespace Played

variable {Asks : HostM Fault σ Bool → Prop} {moves moves' : List (Move σ)} {m m₁ m' : Machine σ}

theorem nil (m : Machine σ) : Played registry Asks [] m m :=
  ⟨rfl, trivial, by simp⟩

theorem append (h : Played registry Asks moves m m₁) (h' : Played registry Asks moves' m₁ m') :
    Played registry Asks (moves ++ moves') m m' := by
  obtain ⟨rfl, hHeeded, hAsked⟩ := h
  obtain ⟨rfl, hHeeded', hAsked'⟩ := h'
  refine ⟨replay_append registry moves moves' m, ?_, ?_⟩
  · exact (heeded_append registry moves moves' m).mpr ⟨hHeeded, hHeeded'⟩
  · intro question hMem
    rcases List.mem_append.mp hMem with hMem | hMem
    · exact hAsked question hMem
    · exact hAsked' question hMem

theorem say {e : Event} (hSilent : e.call? = none) (m : Machine σ) :
    Played registry Asks [.say e hSilent] m (m.log e) :=
  ⟨rfl, ⟨by simp [Move.command?], trivial⟩, by simp⟩

theorem ask {question : HostM Fault σ Bool} (hAsks : Asks question) (m : Machine σ) :
    Played registry Asks [.ask question] m (m.after question) :=
  ⟨rfl, ⟨by simp [Move.command?], trivial⟩, by simpa using hAsks⟩

theorem turn (ctx : Context σ) (c : Simple) (hDown : m.isStopped = false) :
    Played registry Asks [.turn ctx c] m (endState (runSimple registry ctx c) m) :=
  ⟨rfl, ⟨fun _ => hDown, trivial⟩, by simp⟩

theorem mono {Asks' : HostM Fault σ Bool → Prop} (h : Played registry Asks moves m m')
    (hAsks : ∀ question, Asks question → Asks' question) : Played registry Asks' moves m m' :=
  ⟨h.replayed, h.heeded, fun question hMem => hAsks question (h.asked question hMem)⟩

theorem since (h : Played registry Asks moves m m') :
    ∃ es, Since m m' es ∧ (dispatched es).Sublist ((turns moves).map Simple.invocation) := by
  obtain ⟨rfl, -, -⟩ := h
  exact sublist_dispatched_replay registry moves m

/-- **The first turn after which the signal is up is the last one.** -/
theorem halts (h : Played registry Asks moves m m')
    (hKeeps : ∀ question, Asks question → KeepsUp question) :
    Halts registry moves m := by
  rintro before after rfl hUp
  obtain ⟨-, hHeeded⟩ := (heeded_append registry before after m).mp h.heeded
  have hNone : turns after = [] :=
    turns_eq_nil (fun question hMem => hKeeps question (h.asked question (by simp [hMem])))
      hHeeded hUp
  refine ⟨hNone, ?_⟩
  obtain ⟨es, hSince, hCalls⟩ :=
    sublist_dispatched_replay registry after (replay registry before m)
  rw [replay_append, hSince.newEvents_eq]
  simpa [hNone] using hCalls

end Played

/-! ## Trees -/

/-- A tree asks nothing by itself, and its commands get their turns from left to right. -/
theorem exists_played_of_treeRun {ctx : Context σ} {cs : List Simple} {m m' : Machine σ}
    {e : Option Raised} (h : TreeRun registry ctx cs m e m') :
    ∃ moves, Played registry (fun _ => False) moves m m' ∧ (turns moves).Sublist cs := by
  induction h with
  | done m => exact ⟨[], .nil m, .refl _⟩
  | passed c _ ih =>
      obtain ⟨moves, hPlayed, hTurns⟩ := ih
      exact ⟨moves, hPlayed, hTurns.cons c⟩
  | ran stdin hDown _ _ ih =>
      obtain ⟨moves, hPlayed, hTurns⟩ := ih
      exact ⟨_, (Played.turn _ _ hDown).append hPlayed, hTurns.cons_cons _⟩
  | letOut stdin hDown _ => exact ⟨_, .turn _ _ hDown, (List.nil_sublist _).cons_cons _⟩
  | interrupted _ _ ih =>
      obtain ⟨moves, hPlayed, hTurns⟩ := ih
      exact ⟨_, (Played.say rfl _).append hPlayed, hTurns⟩
  | stageEnded _ _ _ _ _ ih =>
      obtain ⟨moves, hPlayed, hTurns⟩ := ih
      exact ⟨_, (Played.say rfl _).append hPlayed, hTurns⟩

end Moves

/-! ## Sessions -/

namespace Session

variable {σ : Type} {shell : Shell σ}

/-- What a session asks its store while it runs a line: whether a directory is there. -/
def Looks (storage : Storage σ) (question : HostM Fault σ Bool) : Prop :=
  ∃ isDir path, storage.isDir = some isDir ∧ question = isDir path

/-- The machine was led here by moves, and the commands that got a turn belong to the
trees that were run. -/
def Told (shell : Shell σ) (m : Machine σ) (_ : Option Raised) (m' : Machine σ) : Prop :=
  ∃ moves es, Played shell.registry (Looks shell.storage) moves m m' ∧ Since m m' es ∧
    (turns moves).Sublist ((startedTrees es).flatMap Tree.simples)

theorem composes_told (shell : Shell σ) : Composes (Told shell) where
  refl := fun m => ⟨[], [], .nil m, Since.refl m, .refl _⟩
  trans := by
    rintro m m₁ m' e ⟨moves, es, hPlayed, hSince, hTurns⟩ ⟨moves', fs, hPlayed', hSince', hTurns'⟩
    refine ⟨_, _, hPlayed.append hPlayed', hSince.trans hSince', ?_⟩
    rw [turns_append, startedTrees_append, List.flatMap_append]
    exact hTurns.append hTurns'

theorem told_of_step {m m' : Machine σ} {e : Option Raised} (h : Step shell m e m') :
    Told shell m e m' := by
  cases h with
  | @tree ctx _ tree =>
      obtain ⟨moves, hPlayed, hTurns⟩ :=
        exists_played_of_treeRun (treeRun_run shell.registry ctx tree (m.log (.started tree)))
      obtain ⟨es, hSince, -⟩ := hPlayed.since
      refine ⟨_, _, (Played.say rfl m).append (hPlayed.mono fun _ h => h.elim),
        (Since.log m _).trans hSince, ?_⟩
      exact hTurns.trans (List.sublist_append_left _ _)
  | @look isDir hIsDir path =>
      obtain ⟨es, hSince, -⟩ := Quietly.after m (isDir path)
      exact ⟨_, es, .ask ⟨_, path, hIsDir, rfl⟩ m, hSince, List.nil_sublist _⟩
  | said hQuiet =>
      exact ⟨_, _, .say (Event.call?_of_isQuiet hQuiet) m, Since.log m _, List.nil_sublist _⟩

/--
**After the signal.** The commands that running a tree calls are commands of the tree,
from left to right, each at most once; and wherever the signal is up, none is called
any more. The same is true of a line: it is not run at all, or it starts with a signal
of its own, and from the moment that is up no further stage, right side, tree or line
of a file gets a command called, however deep the files are nested. The store must not
lower the signal when the session asks it for a directory.
-/
theorem signal_ends_calls :
    (∀ (registry : Registry (Command σ)) (ctx : Context σ) (tree : Tree) (m : Machine σ),
      let m' := endState (run registry ctx tree) m
      (dispatched (newEvents m m')).Sublist (tree.simples.map Simple.invocation) ∧
        ∃ moves, Played registry (fun _ => False) moves m m' ∧
          (turns moves).Sublist tree.simples ∧ Halts registry moves m) ∧
    (∀ shell : Shell σ, (∀ question, Looks shell.storage question → KeepsUp question) →
      ∀ (line : String) (s : Session σ),
        let m' := (endState (evaluate shell line) s).machine
        let commands := (startedTrees (newEvents s.machine m')).flatMap Tree.simples
        m' = s.machine ∨
          (dispatched (newEvents s.machine m')).Sublist (commands.map Simple.invocation) ∧
            ∃ moves, Played shell.registry (Looks shell.storage) moves s.renewed.machine m' ∧
              (turns moves).Sublist commands ∧ Halts shell.registry moves s.renewed.machine) := by
  refine ⟨fun registry ctx tree m => ?_, fun shell hKeeps line s => ?_⟩
  · obtain ⟨moves, hPlayed, hTurns⟩ := exists_played_of_treeRun (treeRun_run registry ctx tree m)
    obtain ⟨es, hSince, hCalls⟩ := hPlayed.since
    refine ⟨?_, moves, hPlayed, hTurns, hPlayed.halts fun _ h => h.elim⟩
    rw [hSince.newEvents_eq]
    exact hCalls.trans (hTurns.map _)
  · have hEvaluate : Leads (Evaluates shell) (evaluate shell line) s := leads_evaluate line s
    rcases hEvaluate with ⟨-, -, hSame⟩ | ⟨-, hTrail⟩
    · exact .inl hSame
    · obtain ⟨moves, es, hPlayed, hSince, hTurns⟩ :=
        hTrail.lift (composes_told shell) told_of_step
      obtain ⟨es', hSince', hCalls⟩ := hPlayed.since
      -- a renewed signal does not show in the trace, so the call adds what the moves add
      obtain rfl : es' = es := hSince'.newEvents_eq.symm.trans hSince.newEvents_eq
      have hEvents : newEvents s.machine (endState (evaluate shell line) s).machine = es' := by
        rw [← hSince.newEvents_eq, newEvents, newEvents, trace_renewed]
      refine .inr ?_
      simp only [hEvents]
      exact ⟨hCalls.trans (hTurns.map _), moves, hPlayed, hTurns, hPlayed.halts hKeeps⟩

/-- A command that puts the signal up. -/
def stopping : Command σ := fun _ h =>
  .ok (some {}) { h with signal := h.signal.map fun signal => { signal with raised := true } }

/-- A shell with a command that puts the signal up. -/
def stoppable : Shell FileTree :=
  ⟨.memory, (({} : Registry (Command FileTree)).add "stop" stopping).add "echo"
    (.pure fun call => Builtin.echo call.args)⟩

/-- The trees of the line `stop | echo a || echo b; echo c`. -/
def stoppedTrees : List Tree :=
  [.logical (.pipeline [⟨"stop", [], []⟩, ⟨"echo", ["a"], []⟩]) .or (.simple ⟨"echo", ["b"], []⟩),
   .simple ⟨"echo", ["c"], []⟩]

theorem keepsUp_of_looks {question : HostM Fault FileTree Bool}
    (h : Looks Storage.memory question) : KeepsUp question := by
  obtain ⟨isDir, path, hIsDir, rfl⟩ := h
  cases hIsDir
  exact fun m hUp => hUp

theorem evaluate_stopped :
    evaluate stoppable "stop | echo a || echo b; echo c" (start ∅ ∅ (ownStore ∅)) =
      runTrees (runLinesIn stoppable maxDepth) stoppable stoppedTrees {}
        (start ∅ ∅ (ownStore ∅)).renewed :=
  evaluateWith_of_parse _ _ (by decide +kernel) (parse_of_isEmpty rfl rfl rfl rfl)

/-- Of the four commands of a line, the first puts the signal up. -/
theorem signal_ends_calls_stopped :
    let s := start ∅ ∅ (ownStore ∅)
    let m' := (endState (evaluate stoppable "stop | echo a || echo b; echo c") s).machine
    (∀ question, Looks stoppable.storage question → KeepsUp question) ∧
      dispatched (newEvents s.machine m') = [("stop", [])] ∧ m'.isStopped = true ∧
      ∃ moves, Played stoppable.registry (Looks stoppable.storage) moves s.renewed.machine m' ∧
        Halts stoppable.registry moves s.renewed.machine := by
  intro s m'
  have hKeeps : ∀ question, Looks stoppable.storage question → KeepsUp question :=
    fun _ => keepsUp_of_looks
  have hCalls : dispatched (newEvents s.machine m') = [("stop", [])] ∧ m'.isStopped = true := by
    simp only [m', endState, s, evaluate_stopped]
    decide +kernel
  refine ⟨hKeeps, hCalls.1, hCalls.2, ?_⟩
  rcases signal_ends_calls.2 stoppable hKeeps "stop | echo a || echo b; echo c" s with hSame | hRun
  · have hUp : s.machine.isStopped = true := hSame ▸ hCalls.2
    exact absurd hUp (by decide)
  · obtain ⟨-, moves, hPlayed, -, hHalts⟩ := hRun
    exact ⟨moves, hPlayed, hHalts⟩

end Session

end MemShell
