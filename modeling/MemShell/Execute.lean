import MemShell.Event

/-!
# Running command trees

Trees are run on a `Machine`: the state of the store, the signal and the trace
of events. Running gives an outcome; a fault of a command or of the store is met
here and becomes a failed outcome, so the only things that leave a tree are an
interrupt and a cancellation raised by a command.

The rules, from the inside out:

* **A command.** Its inputs are read in order and the last one is what it sees.
  Then its name is looked up and it runs, and its printed text goes to its
  outputs in order, up to the first that fails. Text that went to a file is not
  printed as well.
* **A pipeline.** Each stage sees what the one before printed, or nothing if that
  one failed. Only the last stage's texts and status count, but all changes do.
* **A chain.** The right side runs only if the left side's status asks for it. If
  it runs, its texts and status count, and the changes of both sides.

Before each tree, each stage and each right side the signal is looked at: once it
is up, nothing more is started.

A tree may be of any depth. A limit on how deep calls may be nested is not part of
the model, so what is said here of all trees is said of those that such a limit
leaves room for.

## Main results

* `onHost_ok`, `onHost_error` — how an action on the host shows in the machine.
* `unlessStopped_of_not_isStopped` — with the signal down nothing is in the way.
-/

namespace MemShell

/-- What trees run on. -/
structure Machine (σ : Type) where
  store : σ
  /-- The signal that is watched, if any. -/
  signal : Option Signal := none
  /-- What happened so far, in order. -/
  trace : Array Event := #[]

namespace Machine

variable {σ : Type}

/-- The part of the machine that commands and stores act on. -/
def host (m : Machine σ) : Host σ :=
  ⟨m.store, m.signal, #[]⟩

/-- The machine after the host was acted on. -/
def absorb (m : Machine σ) (h : Host σ) : Machine σ :=
  ⟨h.store, h.signal, m.trace ++ h.notes.map Event.noted⟩

def isStopped (m : Machine σ) : Bool :=
  m.signal.any Signal.raised

def log (m : Machine σ) (e : Event) : Machine σ :=
  { m with trace := m.trace.push e }

end Machine

/-- An action on a machine that may end with an `ε`. -/
abbrev MachineM (ε σ α : Type) := EStateM ε (Machine σ) α

namespace Execute

variable {ε σ α : Type}

def emit (e : Event) : MachineM ε σ Unit :=
  modify (·.log e)

/-- Acts on the host; its notes go into the trace. -/
def onHost (action : HostM ε σ α) : MachineM ε σ α := fun m =>
  match action m.host with
  | .ok a h => .ok a (m.absorb h)
  | .error e h => .error e (m.absorb h)

/-- Runs an action unless the signal is up; then the outcome is that of an
interrupted tree with the changes so far, and the trace says so. -/
def unlessStopped (changes : Changes) (action : MachineM ε σ Outcome) :
    MachineM ε σ Outcome := fun m =>
  if m.isStopped then .ok (.interrupted changes) (m.log .interrupted) else action m

theorem onHost_ok {action : HostM ε σ α} {m : Machine σ} {a : α} {h : Host σ}
    (hRun : action m.host = .ok a h) : onHost action m = .ok a (m.absorb h) := by
  simp [onHost, hRun]

theorem onHost_error {action : HostM ε σ α} {m : Machine σ} {e : ε} {h : Host σ}
    (hRun : action m.host = .error e h) : onHost action m = .error e (m.absorb h) := by
  simp [onHost, hRun]

theorem unlessStopped_of_not_isStopped {changes : Changes} {action : MachineM ε σ Outcome}
    {m : Machine σ} (h : m.isStopped = false) : unlessStopped changes action m = action m := by
  simp [unlessStopped, h]

/-! ## One command -/

/-- Reads the inputs of a command in order. Gives what the command will see, or
the message of the first input that cannot be read. -/
def readInputs (ctx : Context σ) (command : String) :
    List Redirect → String → MachineM ε σ (Except String String)
  | [], stdin => return .ok stdin
  | r :: rs, _ =>
      match ctx.storage with
      | none => return .error (r.inputPath ++ ": " ++ Context.noStorage ++ "\n")
      | some storage => do
          match ← attempt (onHost (storage.read (ctx.resolve r.inputPath))) with
          | .error fault => return .error (r.inputPath ++ ": " ++ fault.explanation ++ "\n")
          | .ok content => do
              emit (.inputRead command r.inputPath)
              readInputs ctx command rs content

/-- Sends a printed text to files in order. Gives the message of the first file
that fails; the files after it are left alone. -/
def sendOutput (ctx : Context σ) (storage : Storage σ) (command text : String) :
    List Redirect → MachineM ε σ (Except String Unit)
  | [] => return .ok ()
  | r :: rs => do
      let path := ctx.resolve r.file
      let send :=
        match r.kind with
        | .write => storage.write path text
        | .append => storage.append path text
      match ← attempt (onHost send) with
      | .error fault => return .error (r.file ++ ": " ++ fault.explanation ++ "\n")
      | .ok () => do
          emit (.redirected r.kind command path)
          sendOutput ctx storage command text rs

/-- Sends the printed text of an outcome to the outputs of its command. -/
def deliver (ctx : Context σ) (command : String) (outputs : List Redirect) (result : Outcome) :
    MachineM ε σ Outcome :=
  match outputs, ctx.storage with
  | [], _ => return result
  | r :: _, none =>
      let message := r.file ++ ": " ++ Context.noStorage ++ "\n"
      return { result with stdout := "", stderr := result.stderr ++ message, status := 1 }
  | _, some storage => do
      match ← sendOutput ctx storage command result.stdout outputs with
      | .ok () => return { result with stdout := "" }
      | .error message =>
          return { result with stdout := "", stderr := result.stderr ++ message, status := 1 }

/-- Runs the command that a name stands for and gives its ending as a value. -/
def dispatch (registry : Registry (Command σ)) (ctx : Context σ) (c : Simple)
    (command : Command σ) : MachineM ε σ (Except Raised (Option Outcome)) := do
  emit (.dispatched c.command c.args ctx.toView)
  let answer ← attempt (onHost (command ⟨c.args, ctx, registry.names⟩))
  modify fun m => m.log (.ended c.command (.ofAnswer answer) m.isStopped)
  return answer

def runSimple (registry : Registry (Command σ)) (ctx : Context σ) (c : Simple) :
    MachineM Raised σ Outcome := do
  match ← readInputs ctx c.command c.inputs ctx.stdin with
  | .error message => return .failed message
  | .ok stdin =>
      match registry.resolve ctx.env c.command with
      | none =>
          return .failedWith Outcome.notFoundStatus (c.command ++ ": command not found\n")
      | some command => do
          match ← dispatch registry { ctx with stdin } c command with
          | .ok (some result) => deliver ctx c.command c.outputs result
          | .ok none => return .failed (c.command ++ ": invalid result from command\n")
          | .error (.fault fault) => return .failed (c.command ++ ": " ++ fault.message ++ "\n")
          | .error other => throw other

/-! ## Pipelines and chains -/

/-- What the next stage of a pipeline sees. -/
def handOver (result : Outcome) : String :=
  if result.ok then result.stdout else ""

/-- Runs the stages of a pipeline from number `index` on, of `total` in all.
`last` is the outcome of the stage before, with the changes of all before. -/
def runStages (registry : Registry (Command σ)) (ctx : Context σ) (total : Nat) :
    Nat → List Simple → String → Outcome → MachineM Raised σ Outcome
  | _, [], _, last => return last
  | index, stage :: rest, stdin, last =>
      unlessStopped last.changes do
        let result ← runSimple registry { ctx with stdin } stage
        if !rest.isEmpty then
          emit (.stageEnded index total stage.command result.status)
        runStages registry ctx total (index + 1) rest (handOver result)
          { result with changes := last.changes.merge result.changes }

/-- Whether a chain ends after an outcome of its left side. -/
def stopsAfter : Connective → Outcome → Bool
  | .and, left => !left.ok
  | .or, left => left.ok

def run (registry : Registry (Command σ)) (ctx : Context σ) : Tree → MachineM Raised σ Outcome
  | .simple c => unlessStopped {} (runSimple registry ctx c)
  | .pipeline stages =>
      unlessStopped {} (runStages registry ctx stages.length 1 stages ctx.stdin {})
  | .logical left connective right =>
      unlessStopped {} do
        let first ← run registry ctx left
        if stopsAfter connective first then return first
        unlessStopped first.changes do
          let second ← run registry ctx right
          return { second with changes := first.changes.merge second.changes }

end Execute

end MemShell
