import MemShell.Cli
import MemShell.Proofs.CoreQuestions
import MemShell.Proofs.SessionSteps

/-!
# A signal that stays down

A signal that is down, and that no waiting puts up, is as good as none: nobody who looks at
it learns anything, and a command that waits leaves it as it is. So two sessions that differ
in such a signal and in their traces only cannot be told apart by anything that is run in
them, as long as the store is kept in memory and the commands are the core commands.

This is a statement about two runs of one action (`Blind`). It is carried from the host over
the machine to the session by the same few closure lemmas, one construct at a time, and by
induction over the trees, over the lines and over the levels of sourcing.

## Main results

* `blind_core` — core commands, on hosts with the same store.
* `Execute.blind_run` — trees, on machines with the same store.
* `Session.blind_runLinesIn` — lines of files, in sessions that agree but for their machines.
-/

namespace MemShell

/-! ## Actions that cannot tell states apart -/

section Blindness

variable {ε ε' S α β : Type} {Q : S → S → Prop}

/-- Two runs return the same or let the same out, in states that are related. -/
inductive SameEnd (Q : S → S → Prop) : EStateM.Result ε S α → EStateM.Result ε S α → Prop
  | returned (a : α) {s t : S} (h : Q s t) : SameEnd Q (.ok a s) (.ok a t)
  | raised (e : ε) {s t : S} (h : Q s t) : SameEnd Q (.error e s) (.error e t)

/-- The action cannot tell related states apart. -/
def Blind (Q : S → S → Prop) (action : EStateM ε S α) : Prop :=
  ∀ s t, Q s t → SameEnd Q (action s) (action t)

theorem SameEnd.bind {first : EStateM ε S α} {next : α → EStateM ε S β} {s t : S}
    (h : SameEnd Q (first s) (first t)) (hNext : ∀ a, Blind Q (next a)) :
    SameEnd Q ((first >>= next) s) ((first >>= next) t) := by
  generalize hRun : first s = result at h
  generalize hRun' : first t = result' at h
  cases h with
  | returned a hStates =>
      rw [bind_of_ok hRun, bind_of_ok hRun']
      exact hNext a _ _ hStates
  | raised e hStates =>
      rw [bind_of_error hRun, bind_of_error hRun']
      exact .raised e hStates

namespace Blind

variable {action : EStateM ε S α}

theorem pure (a : α) : Blind Q (Pure.pure a : EStateM ε S α) :=
  fun _ _ hStates => .returned a hStates

theorem throw (e : ε) : Blind Q (MonadExcept.throw e : EStateM ε S α) :=
  fun _ _ hStates => .raised e hStates

theorem bind {next : α → EStateM ε S β} (h : Blind Q action) (hNext : ∀ a, Blind Q (next a)) :
    Blind Q (action >>= next) :=
  fun s t hStates => (h s t hStates).bind hNext

theorem map (f : α → β) (h : Blind Q action) : Blind Q (f <$> action) := by
  rw [← bind_pure_comp]
  exact h.bind fun a => .pure (f a)

/-- An action that looks at the state first. -/
theorem get_bind {next : S → EStateM ε S β}
    (h : ∀ s t, Q s t → SameEnd Q (next s s) (next t t)) : Blind Q (get >>= next) :=
  h

theorem update {f : S → S} (h : ∀ s t, Q s t → Q (f s) (f t)) :
    Blind Q (modify f : EStateM ε S PUnit) :=
  fun s t hStates => .returned _ (h s t hStates)

theorem attempt (h : Blind Q action) : Blind Q (MemShell.attempt action : EStateM ε' S _) := by
  intro s t hStates
  have hEnd := h s t hStates
  unfold MemShell.attempt
  generalize action s = result, action t = result' at hEnd
  cases hEnd with
  | returned a hStates' => exact .returned _ hStates'
  | raised e hStates' => exact .returned _ hStates'

theorem raising {Q : Host S → Host S → Prop} {action : HostM Fault S α} (h : Blind Q action) :
    Blind Q (MemShell.raising action) := by
  intro s t hStates
  have hEnd := h s t hStates
  unfold MemShell.raising
  generalize action s = result, action t = result' at hEnd
  cases hEnd with
  | returned a hStates' => exact .returned _ hStates'
  | raised e hStates' => exact .raised _ hStates'

end Blind

end Blindness

/-! ## Hosts -/

/-- If a signal is watched, it is down, and no waiting puts it up. -/
def StaysDown (signal : Option Signal) : Prop :=
  ∀ g ∈ signal, g = ⟨false, false⟩

theorem StaysDown.any_raised {signal : Option Signal} (h : StaysDown signal) :
    signal.any Signal.raised = false := by
  cases signal with
  | none => rfl
  | some g => rw [h g rfl]; rfl

/-- Waiting leaves the signal as it is. -/
theorem StaysDown.map {signal : Option Signal} (h : StaysDown signal) :
    signal.map (fun g => { g with raised := g.raised || g.onWait }) = signal := by
  cases signal with
  | none => rfl
  | some g => rw [h g rfl]; rfl

/-- The same store, and no signal that is up or goes up. -/
structure Host.Undisturbed {σ : Type} (h k : Host σ) : Prop where
  store : h.store = k.store
  left : StaysDown h.signal
  right : StaysDown k.signal

section Hosts

variable {ε α : Type}

theorem blind_of_onlyAsks {Out : ε → Prop} {action : HostM ε FileTree α}
    (h : OnlyAsks Out action) : Blind Host.Undisturbed action := by
  obtain ⟨answer, hRun, -⟩ := h
  intro host host' hHosts
  rw [hRun, hRun, hHosts.store]
  cases answer host'.store with
  | ok a => exact .returned a hHosts
  | error e => exact .raised e hHosts

theorem blind_change (act : FileTree → Except Fault FileTree) (note : Note) :
    Blind Host.Undisturbed (Storage.change act note) := by
  intro host host' hHosts
  unfold Storage.change
  rw [hHosts.store]
  cases act host'.store with
  | ok t => exact .returned () ⟨rfl, hHosts.left, hHosts.right⟩
  | error f => exact .raised f hHosts

/-- Waiting is noted, and that is all. -/
theorem waitFor_of_staysDown {seconds : Numeral.Decimal} {host : Host FileTree}
    (h : StaysDown host.signal) :
    Builtin.waitFor seconds host =
      .ok false { host with notes := host.notes.push (.waited seconds) } := by
  show EStateM.Result.ok ((host.signal.map _).any Signal.raised)
    { host with signal := host.signal.map _, notes := host.notes.push (.waited seconds) } = _
  rw [h.map, h.any_raised]

theorem blind_sleep (args : List String) :
    Blind Host.Undisturbed (Builtin.sleep args : HostM Fault FileTree Outcome) := by
  unfold Builtin.sleep
  split
  · split
    · exact .pure _
    · refine .bind (fun host host' hHosts => ?_) fun interrupted => ?_
      · rw [waitFor_of_staysDown hHosts.left, waitFor_of_staysDown hHosts.right]
        exact .returned false ⟨hHosts.store, hHosts.left, hHosts.right⟩
      · split
        · exact .pure _
        · exact .pure _
  · exact .pure _

end Hosts

/-- With its store in memory, the command cannot tell such hosts apart. -/
def Command.Blind (command : Command FileTree) : Prop :=
  ∀ call, call.context.InMemory → MemShell.Blind Host.Undisturbed (command call)

theorem Command.OnlyAsks.blind {Out : List String → Raised → Prop} {command : Command FileTree}
    (h : command.OnlyAsks Out) : command.Blind := by
  intro call hMemory
  obtain ⟨question, hAsks, hCommand⟩ := h call hMemory
  rw [hCommand]
  exact (blind_of_onlyAsks hAsks).map some

/-- **No core command** can tell such hosts apart. -/
theorem blind_core : Builtin.registry.Holds Command.Blind := by
  refine ⟨fun name command hGet => ?_, fun path command hGet => ?_⟩
  · by_cases hSleep : name = "sleep"
    · rw [hSleep] at hGet
      obtain rfl : (.ofHost fun call => Builtin.sleep call.args) = command := Option.some.inj hGet
      exact fun call _ => (Blind.raising (blind_sleep call.args)).map some
    · exact (Builtin.onlyAsks_of_get? hGet hSleep).blind
  · cases hGet

/-! ## Machines -/

/-- The same store, and no signal that is up or goes up. -/
structure Machine.Undisturbed {σ : Type} (m n : Machine σ) : Prop where
  store : m.store = n.store
  left : StaysDown m.signal
  right : StaysDown n.signal

namespace Execute

variable {ε : Type} {α : Type} {registry : Registry (Command FileTree)} {ctx : Context FileTree}

theorem blind_emit (e : Event) : Blind Machine.Undisturbed (emit e : MachineM ε FileTree Unit) :=
  .update fun _ _ hMachines => ⟨hMachines.store, hMachines.left, hMachines.right⟩

theorem blind_onHost {action : HostM ε FileTree α} (h : Blind Host.Undisturbed action) :
    Blind Machine.Undisturbed (onHost action) := by
  intro m n hMachines
  have hEnd := h m.host n.host ⟨hMachines.store, hMachines.left, hMachines.right⟩
  unfold onHost
  generalize action m.host = result, action n.host = result' at hEnd
  cases hEnd with
  | returned a hHosts => exact .returned a ⟨hHosts.store, hHosts.left, hHosts.right⟩
  | raised e hHosts => exact .raised e ⟨hHosts.store, hHosts.left, hHosts.right⟩

/-- Looking at the signal tells nothing. -/
theorem blind_unlessStopped (changes : Changes) {action : MachineM ε FileTree Outcome}
    (h : Blind Machine.Undisturbed action) :
    Blind Machine.Undisturbed (unlessStopped changes action) := by
  intro m n hMachines
  have hDown : ∀ {k : Machine FileTree}, StaysDown k.signal → k.isStopped = false :=
    fun hSignal => hSignal.any_raised
  rw [unlessStopped_of_not_isStopped (hDown hMachines.left),
    unlessStopped_of_not_isStopped (hDown hMachines.right)]
  exact h m n hMachines

theorem blind_memory_read (path : String) :
    Blind Host.Undisturbed (Storage.memory.read path) := by
  have hAsks : OnlyAsks (fun _ => True) (Storage.memory.read path) :=
    .ask (·.read path) fun _ _ _ => trivial
  exact blind_of_onlyAsks hAsks

theorem blind_readInputs (hMemory : ctx.InMemory) (command : String) (rs : List Redirect) :
    ∀ stdin : String, Blind Machine.Undisturbed
      (readInputs ctx command rs stdin : MachineM ε FileTree _) := by
  induction rs with
  | nil => exact fun stdin => .pure _
  | cons r rs ih =>
      intro stdin
      unfold readInputs
      cases hStorage : ctx.storage with
      | none => exact .pure _
      | some storage =>
          obtain rfl := hMemory storage hStorage
          refine .bind (.attempt (blind_onHost (blind_memory_read _))) fun answer => ?_
          cases answer with
          | error fault => exact .pure _
          | ok content => exact .bind (blind_emit _) fun _ => ih content

theorem blind_sendOutput (ctx : Context FileTree) (command text : String) (rs : List Redirect) :
    Blind Machine.Undisturbed
      (sendOutput ctx .memory command text rs : MachineM ε FileTree _) := by
  induction rs with
  | nil => exact .pure _
  | cons r rs ih =>
      unfold sendOutput
      refine .bind (.attempt (blind_onHost ?_)) fun answer => ?_
      · cases r.kind with
        | write => exact blind_change (·.write _ text) _
        | append => exact blind_change (·.append _ text) _
      · cases answer with
        | error fault => exact .pure _
        | ok _ => exact .bind (blind_emit _) fun _ => ih

theorem blind_deliver (hMemory : ctx.InMemory) (command : String) (outputs : List Redirect)
    (result : Outcome) :
    Blind Machine.Undisturbed (deliver ctx command outputs result : MachineM ε FileTree _) := by
  unfold deliver
  match outputs, hStorage : ctx.storage with
  | [], _ => exact .pure _
  | _ :: _, none => exact .pure _
  | r :: rs, some storage =>
      obtain rfl := hMemory storage hStorage
      refine .bind (blind_sendOutput ctx _ _ _) fun answer => ?_
      cases answer with
      | error message => exact .pure _
      | ok _ => exact .pure _

theorem blind_dispatch (hMemory : ctx.InMemory) (c : Simple) {command : Command FileTree}
    (h : command.Blind) :
    Blind Machine.Undisturbed (dispatch registry ctx c command : MachineM ε FileTree _) := by
  unfold dispatch
  refine .bind (blind_emit _) fun _ =>
    .bind (.attempt (blind_onHost (h ⟨c.args, ctx, registry.names⟩ hMemory))) fun answer =>
      .bind (.update fun m n hMachines => ?_) fun _ => .pure _
  exact ⟨hMachines.store, hMachines.left, hMachines.right⟩

theorem blind_runSimple (h : registry.Holds Command.Blind) (hMemory : ctx.InMemory) (c : Simple) :
    Blind Machine.Undisturbed (runSimple registry ctx c) := by
  unfold runSimple
  refine .bind (blind_readInputs hMemory _ _ _) fun input => ?_
  cases input with
  | error message => exact .pure _
  | ok stdin =>
      cases hResolve : registry.resolve ctx.env c.command with
      | none => exact .pure _
      | some command =>
          have hSeen : ({ ctx with stdin } : Context FileTree).InMemory := hMemory
          refine .bind (blind_dispatch hSeen c (h.of_resolve hResolve)) fun answer => ?_
          match answer with
          | .ok (some result) => exact blind_deliver hMemory _ _ result
          | .ok none => exact .pure _
          | .error (.fault fault) => exact .pure _
          | .error .interrupt => exact .throw _
          | .error .cancelled => exact .throw _

theorem blind_runStages (h : registry.Holds Command.Blind) (total : Nat) (stages : List Simple) :
    ∀ (index : Nat) {ctx : Context FileTree} (stdin : String) (last : Outcome), ctx.InMemory →
      Blind Machine.Undisturbed (runStages registry ctx total index stages stdin last) := by
  induction stages with
  | nil => exact fun index ctx stdin last _ => .pure _
  | cons stage rest ih =>
      intro index ctx stdin last hMemory
      have hSeen : ({ ctx with stdin } : Context FileTree).InMemory := hMemory
      unfold runStages
      refine blind_unlessStopped _ (.bind (blind_runSimple h hSeen stage) fun result => ?_)
      split
      · exact .bind (blind_emit _) fun _ => ih _ _ _ hMemory
      · exact ih _ _ _ hMemory

/-- **No tree** can tell such machines apart. -/
theorem blind_run (h : registry.Holds Command.Blind) (hMemory : ctx.InMemory) (tree : Tree) :
    Blind Machine.Undisturbed (run registry ctx tree) := by
  induction tree with
  | simple c => exact blind_unlessStopped _ (blind_runSimple h hMemory c)
  | pipeline stages => exact blind_unlessStopped _ (blind_runStages h _ stages 1 _ _ hMemory)
  | logical left connective right ihLeft ihRight =>
      unfold run
      refine blind_unlessStopped _ (.bind ihLeft fun first => ?_)
      split
      · exact .pure _
      · exact blind_unlessStopped _ (.bind ihRight fun second => .pure _)

end Execute

/-! ## Sessions -/

namespace Session

/-- The sessions agree but for their machines, which have the same store and no signal that is
up or goes up. -/
def Undisturbed (s t : Session FileTree) : Prop :=
  ∃ n, s.machine.Undisturbed n ∧ t = { s with machine := n }

theorem Undisturbed.exitRequested_eq {s t : Session FileTree} (h : Undisturbed s t) :
    t.exitRequested = s.exitRequested := by
  obtain ⟨n, -, rfl⟩ := h
  rfl

variable {α : Type} {registry : Registry (Command FileTree)}

/-- A change beside the machine. -/
theorem blind_modify {f : Session FileTree → Session FileTree}
    (h : ∀ s (n : Machine FileTree), f { s with machine := n } = { f s with machine := n }) :
    Blind Undisturbed (modify f : SessionM FileTree PUnit) := by
  refine .update ?_
  rintro s _ ⟨n, hMachines, rfl⟩
  have hSame : f s = { f s with machine := s.machine } := h s s.machine
  refine ⟨n, ?_, h s n⟩
  rw [hSame]
  exact hMachines

theorem blind_onMachine {action : MachineM Raised FileTree α}
    (h : Blind Machine.Undisturbed action) : Blind Undisturbed (onMachine action) := by
  rintro s _ ⟨n, hMachines, rfl⟩
  have hEnd := h s.machine n hMachines
  unfold onMachine
  generalize action s.machine = result, action n = result' at hEnd
  cases hEnd with
  | returned a hAfter => exact .returned a ⟨_, hAfter, rfl⟩
  | raised e hAfter => exact .raised e ⟨_, hAfter, rfl⟩

theorem blind_emit (e : Event) : Blind Undisturbed (emit e : SessionM FileTree Unit) :=
  blind_onMachine (Execute.blind_emit e)

theorem blind_onStorage {action : HostM Fault FileTree α} (h : Blind Host.Undisturbed action) :
    Blind Undisturbed (onStorage action) :=
  blind_onMachine (Execute.blind_onHost h.raising)

theorem blind_nested {action : SessionM FileTree α} (h : Blind Undisturbed action) :
    Blind Undisturbed (nested action) := by
  rintro s _ ⟨n, hMachines, rfl⟩
  have hDeeper : Undisturbed s.deeper ({ s with machine := n } : Session FileTree).deeper :=
    ⟨n.log (.entered (s.depth + 1)), ⟨hMachines.store, hMachines.left, hMachines.right⟩, rfl⟩
  have hEnd := h _ _ hDeeper
  unfold nested
  generalize action s.deeper = result,
    action ({ s with machine := n } : Session FileTree).deeper = result' at hEnd
  cases hEnd with
  | returned a hAfter =>
      obtain ⟨n', hMachines', rfl⟩ := hAfter
      exact .returned a ⟨n', hMachines', rfl⟩
  | raised e hAfter =>
      obtain ⟨n', hMachines', rfl⟩ := hAfter
      exact .raised e ⟨n', hMachines', rfl⟩

theorem blind_changeDir (dir : Option String) :
    Blind Undisturbed (changeDir ⟨.memory, registry⟩ dir) := by
  cases dir with
  | none => exact .pure _
  | some path =>
      have hAsks : OnlyAsks (fun _ => True) (Storage.ask fun t => .ok (t.isDir path)) :=
        .ask _ fun _ _ _ => trivial
      refine .bind (blind_onStorage (blind_of_onlyAsks hAsks)) fun there => ?_
      cases there with
      | true => exact blind_modify fun _ _ => rfl
      | false => exact blind_emit _

/-- A line evaluated on its own is given a signal that is down. -/
theorem staysDown_renewed {σ : Type} {s : Session σ} (h : StaysDown s.machine.signal) :
    StaysDown s.renewed.machine.signal := by
  unfold renewed
  split
  · exact fun g hSome => (Option.some.inj hSome).symm
  · exact h

theorem undisturbed_renewed {s : Session FileTree} {n : Machine FileTree}
    (h : s.machine.Undisturbed n) :
    Undisturbed s.renewed ({ s with machine := n } : Session FileTree).renewed := by
  have hLeft := staysDown_renewed h.left
  have hRight : StaysDown ({ s with machine := n } : Session FileTree).renewed.machine.signal :=
    staysDown_renewed h.right
  refine ⟨_, ⟨?_, hLeft, hRight⟩, ?_⟩
  · rw [store_renewed, store_renewed, h.store]
  · exact (renewed_withMachine { s with machine := n } _).trans (renewed_withMachine s _).symm

section Lines

variable {sourcing : List String → SessionM FileTree Output}
  (hSourcing : ∀ lines, Blind Undisturbed (sourcing lines))

include hSourcing

theorem blind_applyWith (c : Changes) :
    Blind Undisturbed (applyWith sourcing ⟨.memory, registry⟩ c) := by
  unfold applyWith
  refine .bind (blind_modify fun _ _ => rfl) fun _ => .bind (blind_changeDir c.chdir) fun _ =>
    .bind (blind_emit _) fun _ => ?_
  dsimp only
  cases c.exitCode with
  | none =>
      split
      · exact .bind (.pure none) fun _ => .pure _
      · exact .bind ((hSourcing c.sourceLines).map some) fun _ => .pure _
  | some code =>
      have hLeave : ∀ extra : Option Output, Blind Undisturbed (do
          modify fun s => { s with exitRequested := true, exitCode := code }
          emit (.exitAsked code)
          return extra : SessionM FileTree _) := by
        intro extra
        refine .bind (blind_modify fun _ _ => rfl) fun _ => ?_
        exact .bind (blind_emit _) fun _ => .pure _
      split
      · exact .bind (.pure none) hLeave
      · exact .bind ((hSourcing c.sourceLines).map some) hLeave

variable (hCommands : registry.Holds Command.Blind)

include hCommands

theorem blind_runTree (tree : Tree) :
    Blind Undisturbed (runTree sourcing ⟨.memory, registry⟩ tree) := by
  unfold runTree
  refine .bind (blind_emit _) fun _ => .get_bind ?_
  rintro s _ ⟨n, hMachines, rfl⟩
  have hMemory : (s.context ⟨.memory, registry⟩).InMemory :=
    fun storage hStorage => (Option.some.inj hStorage).symm
  -- both sessions show the same to the tree
  refine SameEnd.bind (blind_onMachine (Execute.blind_run hCommands hMemory tree) s _
    ⟨n, hMachines, rfl⟩) fun result => ?_
  refine .bind (blind_modify fun _ _ => rfl) fun _ => ?_
  split
  · exact .pure _
  · refine .bind (blind_applyWith hSourcing result.changes) fun extra => ?_
    cases extra with
    | none => exact .pure _
    | some extra => exact .pure _

theorem blind_runTrees (trees : List Tree) :
    ∀ before : Output, Blind Undisturbed (runTrees sourcing ⟨.memory, registry⟩ trees before) := by
  induction trees with
  | nil => exact fun before => .pure _
  | cons tree trees ih =>
      intro before s t hSessions
      have hEnd := blind_runTree hSourcing hCommands tree s t hSessions
      generalize hRun : runTree sourcing ⟨.memory, registry⟩ tree s = result,
        hRun' : runTree sourcing ⟨.memory, registry⟩ tree t = result' at hEnd
      cases hEnd with
      | returned output hAfter =>
          rw [runTrees_cons_of_ok hRun, runTrees_cons_of_ok hRun', hAfter.exitRequested_eq]
          split
          · exact .returned _ hAfter
          · exact ih _ _ _ hAfter
      | raised e hAfter =>
          rw [runTrees_cons_of_error hRun, runTrees_cons_of_error hRun']
          exact .raised e hAfter

theorem blind_evaluateWith (line : String) :
    Blind Undisturbed (evaluateWith sourcing ⟨.memory, registry⟩ line) := by
  rintro s _ ⟨n, hMachines, rfl⟩
  have hSame : ({ s with machine := n } : Session FileTree).parse line = s.parse line := rfl
  cases hHas : Builtin.hasCommand line with
  | false =>
      rw [evaluateWith_of_blank _ _ hHas, evaluateWith_of_blank _ _ hHas]
      exact .returned _ ⟨n, hMachines, rfl⟩
  | true =>
      cases hParse : s.parse line with
      | error e =>
          rw [evaluateWith_of_error _ _ hHas hParse,
            evaluateWith_of_error _ _ hHas (hSame.trans hParse)]
          exact .returned _ ⟨n, hMachines, rfl⟩
      | ok trees =>
          rw [evaluateWith_of_parse _ _ hHas hParse,
            evaluateWith_of_parse _ _ hHas (hSame.trans hParse)]
          exact blind_runTrees hSourcing hCommands trees _ _ _ (undisturbed_renewed hMachines)

end Lines

theorem blind_runEach {evaluate : String → SessionM FileTree Output}
    (h : ∀ line, Blind Undisturbed (evaluate line)) (lines : List String) :
    ∀ before : Output, Blind Undisturbed (runEach evaluate lines before) := by
  induction lines with
  | nil => exact fun before => .pure _
  | cons line lines ih =>
      intro before s t hSessions
      have hEnd := h line s t hSessions
      generalize hRun : evaluate line s = result, hRun' : evaluate line t = result' at hEnd
      cases hEnd with
      | returned output hAfter =>
          rw [runEach_cons_of_ok hRun, runEach_cons_of_ok hRun', hAfter.exitRequested_eq]
          split
          · exact .returned _ hAfter
          · exact ih _ _ _ hAfter
      | raised e hAfter =>
          rw [runEach_cons_of_error hRun, runEach_cons_of_error hRun']
          exact .raised e hAfter

/-- **No lines of a file** can tell such sessions apart, however many files they source. -/
theorem blind_runLinesIn (hCommands : registry.Holds Command.Blind) (room : Nat) :
    ∀ lines : List String, Blind Undisturbed (runLinesIn ⟨.memory, registry⟩ room lines) := by
  induction room with
  | zero => exact fun lines => .pure _
  | succ room ih =>
      exact fun lines =>
        blind_nested (blind_runEach (fun line => blind_evaluateWith ih hCommands line) lines {})

end Session

end MemShell
