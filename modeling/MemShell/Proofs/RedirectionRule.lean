import MemShell.Proofs.WrittenFiles

/-!
# One rule for every mix of redirections

The redirections of a command come in any order, and some of them are read and some are
written. Two loops go over them, one before the command is called and one after it, and
each can stop half way. The rule that comes out of this is stated without the loops.

What a loop does to the store is a sequence of calls, *in order up to and including the
first that fails* (`InOrder`): each call starts where the one before ended, whatever that
one did, and what stands after the one that failed is left alone. The rule
(`RedirectRule`) then has one case for each way in which a command can end. It speaks of
the inputs and of the outputs, never of the mixed list, and in the cases that come before
the outputs there is nothing between the last input, or the call, and the end.

## Main results

* `exists_inOrder` — every list of calls has such a run.
* `readInputs_of_reads`, `deliver_of_sends` — the two loops are such runs.
* `runSimple_eq_iff_redirectRule` — the rule, for every command, store and mix.
-/

namespace MemShell

variable {ε σ ι α : Type}

/-! ## Calls in order -/

/-- Calls are made in order, up to and including the first that fails: `answers` are what
the calls before that gave, and `failure` is the one that failed, if any. Each call that
does not fail is entered in the trace. -/
inductive InOrder (call : ι → HostM Fault σ α) (entry : ι → Event) :
    List ι → Machine σ → List α → Option (ι × Fault) → Machine σ → Prop
  | done (m : Machine σ) : InOrder call entry [] m [] none m
  | next {i : ι} {is : List ι} {m m' : Machine σ} {a : α} {answers : List α}
      {failure : Option (ι × Fault)} (hAnswer : answerOf (call i) m.host = .ok a)
      (hRest : InOrder call entry is ((m.after (call i)).log (entry i)) answers failure m') :
      InOrder call entry (i :: is) m (a :: answers) failure m'
  /-- The calls after this one are not made. -/
  | failed {i : ι} {is : List ι} {m : Machine σ} {fault : Fault}
      (hAnswer : answerOf (call i) m.host = .error fault) :
      InOrder call entry (i :: is) m [] (some (i, fault)) (m.after (call i))

/-- Every list of calls can be made in order, from every machine. -/
theorem exists_inOrder (call : ι → HostM Fault σ α) (entry : ι → Event) (is : List ι) :
    ∀ m : Machine σ, ∃ answers failure m', InOrder call entry is m answers failure m' := by
  induction is with
  | nil => exact fun m => ⟨[], none, m, .done m⟩
  | cons i is ih =>
      intro m
      cases hAnswer : answerOf (call i) m.host with
      | error fault => exact ⟨[], some (i, fault), _, .failed hAnswer⟩
      | ok a =>
          obtain ⟨answers, failure, m', hRest⟩ := ih ((m.after (call i)).log (entry i))
          exact ⟨a :: answers, failure, m', .next hAnswer hRest⟩

/-- What is said of a file that fails. -/
def faultLine (file : String) (fault : Fault) : String :=
  file ++ ": " ++ fault.explanation ++ "\n"

/-- What is said of the file of a redirection that failed, if any did. -/
def faultLineOf (file : Redirect → String) : Option (Redirect × Fault) → Option String
  | none => none
  | some (r, fault) => some (faultLine (file r) fault)

namespace Context

/-- Sends a text to the file of an output. -/
def sendTo (ctx : Context σ) (text : String) (r : Redirect) : HostM Fault σ Unit :=
  match ctx.storage with
  | none => throw (.failure noStorage)
  | some storage =>
      match r.kind with
      | .write => storage.write (ctx.resolve r.file) text
      | .append => storage.append (ctx.resolve r.file) text

/-- The inputs of a command are read in order. -/
abbrev Reads (ctx : Context σ) (command : String) : List Redirect → Machine σ → List String →
    Option (Redirect × Fault) → Machine σ → Prop :=
  InOrder (fun r => ctx.readFile r.inputPath) fun r => .inputRead command r.inputPath

/-- The printed text of a command is sent to its outputs in order. -/
abbrev Sends (ctx : Context σ) (command text : String) : List Redirect → Machine σ → List Unit →
    Option (Redirect × Fault) → Machine σ → Prop :=
  InOrder (ctx.sendTo text) fun r => .redirected r.kind command (ctx.resolve r.file)

theorem answerOf_readFile_of_none {ctx : Context σ} (hNone : ctx.storage = none) (name : String)
    (h : Host σ) : answerOf (ctx.readFile name) h = .error (.failure noStorage) := by
  simp only [readFile, hNone]
  rfl

theorem answerOf_sendTo_of_none {ctx : Context σ} (hNone : ctx.storage = none) (text : String)
    (r : Redirect) (h : Host σ) :
    answerOf (ctx.sendTo text r) h = .error (.failure noStorage) := by
  simp only [sendTo, hNone]
  rfl

end Context

/-- An action that leaves the host alone leaves the machine alone. -/
theorem Machine.after_of_endState {m : Machine σ} {action : HostM ε σ α}
    (h : endState action m.host = m.host) : m.after action = m := by
  rw [after, h]
  simp [absorb, host]

namespace Execute

theorem attempt_onHost_of_answerOf {action : HostM Fault σ α} {m : Machine σ}
    {answer : Except Fault α} (h : answerOf action m.host = answer) :
    (attempt (onHost action) : MachineM ε σ _) m = .ok answer (m.after action) := by
  rw [attempt_onHost, h]

variable {ctx : Context σ} {command text : String} {r : Redirect} {rs : List Redirect}
  {m m' : Machine σ} {fault : Fault} {failure : Option (Redirect × Fault)}

/-! ## Reading the inputs -/

theorem readInputs_cons_of_ok {content : String}
    (h : answerOf (ctx.readFile r.inputPath) m.host = .ok content) (stdin : String) :
    (readInputs ctx command (r :: rs) stdin : MachineM ε σ _) m =
      readInputs ctx command rs content
        ((m.after (ctx.readFile r.inputPath)).log (.inputRead command r.inputPath)) := by
  cases hStorage : ctx.storage with
  | none =>
      rw [Context.answerOf_readFile_of_none hStorage] at h
      cases h
  | some storage =>
      have hRead := attempt_onHost_of_answerOf (ε := ε) h
      simp only [Context.readFile, hStorage, readInputs] at hRead ⊢
      rw [bind_of_ok hRead]
      exact bind_of_ok rfl

theorem readInputs_cons_of_error (h : answerOf (ctx.readFile r.inputPath) m.host = .error fault)
    (stdin : String) :
    (readInputs ctx command (r :: rs) stdin : MachineM ε σ _) m =
      .ok (.error (faultLine r.inputPath fault)) (m.after (ctx.readFile r.inputPath)) := by
  cases hStorage : ctx.storage with
  | none =>
      rw [Context.answerOf_readFile_of_none hStorage] at h
      cases h
      simp only [readInputs, hStorage, Context.readFile]
      rw [Machine.after_of_endState rfl]
      rfl
  | some storage =>
      have hRead := attempt_onHost_of_answerOf (ε := ε) h
      simp only [Context.readFile, hStorage, readInputs] at hRead ⊢
      exact bind_of_ok hRead

/-- What reading ends with: a message, or the last of the contents. -/
def readAnswer (contents : List String) (failure : Option (Redirect × Fault)) (stdin : String) :
    Except String String :=
  match faultLineOf Redirect.inputPath failure with
  | some message => .error message
  | none => .ok (contents.getLastD stdin)

/-- **Reading** goes through the inputs in order. -/
theorem readInputs_of_reads {contents : List String}
    (h : ctx.Reads command rs m contents failure m') :
    ∀ stdin : String, (readInputs ctx command rs stdin : MachineM ε σ _) m =
      .ok (readAnswer contents failure stdin) m' := by
  induction h with
  | done m => exact fun stdin => rfl
  | next hAnswer _ ih =>
      intro stdin
      rw [readInputs_cons_of_ok hAnswer, ih, readAnswer, readAnswer, List.getLastD_cons]
  | failed hAnswer => exact readInputs_cons_of_error hAnswer

/-! ## Writing the outputs -/

theorem sendOutput_cons_of_ok {storage : Storage σ} (hStorage : ctx.storage = some storage)
    {sent : Unit} (h : answerOf (ctx.sendTo text r) m.host = .ok sent) :
    (sendOutput ctx storage command text (r :: rs) : MachineM ε σ _) m =
      sendOutput ctx storage command text rs
        ((m.after (ctx.sendTo text r)).log (.redirected r.kind command (ctx.resolve r.file))) := by
  have hSend := attempt_onHost_of_answerOf (ε := ε) h
  simp only [Context.sendTo, hStorage] at hSend ⊢
  rw [sendOutput]
  exact (bind_of_ok hSend).trans (bind_of_ok rfl)

theorem sendOutput_cons_of_error {storage : Storage σ} (hStorage : ctx.storage = some storage)
    (h : answerOf (ctx.sendTo text r) m.host = .error fault) :
    (sendOutput ctx storage command text (r :: rs) : MachineM ε σ _) m =
      .ok (.error (faultLine r.file fault)) (m.after (ctx.sendTo text r)) := by
  have hSend := attempt_onHost_of_answerOf (ε := ε) h
  simp only [Context.sendTo, hStorage] at hSend ⊢
  rw [sendOutput]
  exact bind_of_ok hSend

theorem sendOutput_of_sends {storage : Storage σ} (hStorage : ctx.storage = some storage)
    {sent : List Unit} (h : ctx.Sends command text rs m sent failure m') :
    (sendOutput ctx storage command text rs : MachineM ε σ _) m =
      .ok ((faultLineOf Redirect.file failure).elim (.ok ()) .error) m' := by
  induction h with
  | done m => rfl
  | next hAnswer _ ih => rw [sendOutput_cons_of_ok hStorage hAnswer, ih]
  | failed hAnswer => exact sendOutput_cons_of_error hStorage hAnswer

/-- The outcome of a command whose printed text was sent to these outputs. -/
def sentOutcome (outputs : List Redirect) (failure : Option (Redirect × Fault))
    (result : Outcome) : Outcome where
  stdout := if outputs = [] then result.stdout else ""
  stderr := result.stderr ++ (faultLineOf Redirect.file failure).getD ""
  status := if failure = none then result.status else 1
  changes := result.changes

/-- **Writing** goes through the outputs in order. -/
theorem deliver_of_sends {outputs : List Redirect} {result : Outcome} {sent : List Unit}
    (h : ctx.Sends command result.stdout outputs m sent failure m') :
    (deliver ctx command outputs result : MachineM ε σ _) m =
      .ok (sentOutcome outputs failure result) m' := by
  match outputs, hStorage : ctx.storage with
  | [], _ =>
      cases h
      simp [deliver, sentOutcome, faultLineOf]
      rfl
  | r :: rs, none =>
      -- without a store the first output fails, and the machine is as it was
      cases h with
      | next hAnswer =>
          rw [Context.answerOf_sendTo_of_none hStorage] at hAnswer
          cases hAnswer
      | failed hAnswer =>
          rw [Context.answerOf_sendTo_of_none hStorage] at hAnswer
          cases hAnswer
          simp only [deliver, hStorage, Context.sendTo]
          rw [Machine.after_of_endState rfl]
          rfl
  | r :: rs, some storage =>
      have hSend := sendOutput_of_sends (ε := ε) hStorage h
      simp only [deliver, hStorage]
      rw [bind_of_ok hSend]
      cases failure with
      | none => simp [sentOutcome, faultLineOf]; rfl
      | some failed => rfl

/-! ## The rule -/

section Rule

variable {registry : Registry (Command σ)} {c : Simple}

/-- All inputs were read, and the name stands for a command; it will see the last of the
contents, or the input from outside if there are no inputs. -/
structure Ready (registry : Registry (Command σ)) (ctx : Context σ) (c : Simple) (m : Machine σ)
    (seen : Context σ) (command : Command σ) (m₁ : Machine σ) : Prop where
  reads : ∃ contents, ctx.Reads c.command c.inputs m contents none m₁ ∧
    seen = { ctx with stdin := contents.getLastD ctx.stdin }
  resolves : registry.resolve ctx.env c.command = some command

/-- The command is called and gives a usable outcome. -/
def Answers (registry : Registry (Command σ)) (ctx : Context σ) (c : Simple) (m : Machine σ) :
    Prop :=
  ∃ seen command m₁ result, Ready registry ctx c m seen command m₁ ∧
    answerOf (call registry seen c command) m₁.host = .ok (some result)

/-- How a command with redirections ends, and on which machine. -/
inductive RedirectRule (registry : Registry (Command σ)) (ctx : Context σ) (c : Simple)
    (m : Machine σ) : EStateM.Result Raised (Machine σ) Outcome → Prop
  /-- An input cannot be read. -/
  | unread {contents : List String} {r : Redirect} {fault : Fault} {m₁ : Machine σ}
      (hReads : ctx.Reads c.command c.inputs m contents (some (r, fault)) m₁) :
      RedirectRule registry ctx c m (.ok (.failed (faultLine r.inputPath fault)) m₁)
  /-- The name stands for nothing. -/
  | unresolved {contents : List String} {m₁ : Machine σ}
      (hReads : ctx.Reads c.command c.inputs m contents none m₁)
      (hResolve : registry.resolve ctx.env c.command = none) :
      RedirectRule registry ctx c m
        (.ok (.failedWith Outcome.notFoundStatus (c.command ++ ": command not found\n")) m₁)
  /-- The command ends by a fault. -/
  | faulted {seen : Context σ} {command : Command σ} {m₁ : Machine σ} {fault : Fault}
      (hReady : Ready registry ctx c m seen command m₁)
      (hAnswer : answerOf (call registry seen c command) m₁.host = .error (.fault fault)) :
      RedirectRule registry ctx c m
        (.ok (.failed (c.command ++ ": " ++ fault.message ++ "\n"))
          (called registry seen c command m₁))
  /-- The command ends by an interrupt or a cancellation, which goes on to the outside. -/
  | letOut {seen : Context σ} {command : Command σ} {m₁ : Machine σ} {e : Raised}
      (hReady : Ready registry ctx c m seen command m₁)
      (hAnswer : answerOf (call registry seen c command) m₁.host = .error e)
      (hUnmet : e = .interrupt ∨ e = .cancelled) :
      RedirectRule registry ctx c m (.error e (called registry seen c command m₁))
  /-- The command gives nothing usable. -/
  | unusable {seen : Context σ} {command : Command σ} {m₁ : Machine σ}
      (hReady : Ready registry ctx c m seen command m₁)
      (hAnswer : answerOf (call registry seen c command) m₁.host = .ok none) :
      RedirectRule registry ctx c m
        (.ok (.failed (c.command ++ ": invalid result from command\n"))
          (called registry seen c command m₁))
  /-- The command gives an outcome, and its printed text is sent to the outputs. -/
  | answered {seen : Context σ} {command : Command σ} {m₁ m' : Machine σ} {result : Outcome}
      {sent : List Unit} {failure : Option (Redirect × Fault)}
      (hReady : Ready registry ctx c m seen command m₁)
      (hAnswer : answerOf (call registry seen c command) m₁.host = .ok (some result))
      (hSends : ctx.Sends c.command result.stdout c.outputs (called registry seen c command m₁)
        sent failure m') :
      RedirectRule registry ctx c m (.ok (sentOutcome c.outputs failure result) m')

/-- What is done with the answer of a command. -/
def afterAnswer (ctx : Context σ) (c : Simple) :
    Except Raised (Option Outcome) → MachineM Raised σ Outcome
  | .ok (some result) => deliver ctx c.command c.outputs result
  | .ok none => return .failed (c.command ++ ": invalid result from command\n")
  | .error (.fault fault) => return .failed (c.command ++ ": " ++ fault.message ++ "\n")
  | .error other => throw other

theorem runSimple_of_ready {seen : Context σ} {command : Command σ} {m₁ : Machine σ}
    (h : Ready registry ctx c m seen command m₁) :
    runSimple registry ctx c m =
      afterAnswer ctx c (answerOf (call registry seen c command) m₁.host)
        (called registry seen c command m₁) := by
  obtain ⟨⟨contents, hReads, rfl⟩, hResolve⟩ := h
  unfold runSimple
  refine (bind_of_ok (readInputs_of_reads hReads _)).trans ?_
  simp only [readAnswer, faultLineOf, hResolve]
  exact bind_of_ok (dispatch_eq registry _ c command m₁)

/-- A command that follows the rule ends as the rule says. -/
theorem RedirectRule.runSimple_eq {result : EStateM.Result Raised (Machine σ) Outcome}
    (h : RedirectRule registry ctx c m result) : runSimple registry ctx c m = result := by
  cases h with
  | unread hReads =>
      unfold runSimple
      exact bind_of_ok (readInputs_of_reads hReads _)
  | unresolved hReads hResolve =>
      unfold runSimple
      refine (bind_of_ok (readInputs_of_reads hReads _)).trans ?_
      simp only [readAnswer, faultLineOf, hResolve]
      rfl
  | faulted hReady hAnswer => rw [runSimple_of_ready hReady, hAnswer]; rfl
  | letOut hReady hAnswer hUnmet =>
      rw [runSimple_of_ready hReady, hAnswer]
      rcases hUnmet with rfl | rfl <;> rfl
  | unusable hReady hAnswer => rw [runSimple_of_ready hReady, hAnswer]; rfl
  | answered hReady hAnswer hSends =>
      rw [runSimple_of_ready hReady, hAnswer]
      exact deliver_of_sends hSends

/-- Every command ends in one of the ways of the rule. -/
theorem exists_redirectRule (registry : Registry (Command σ)) (ctx : Context σ) (c : Simple)
    (m : Machine σ) : ∃ result, RedirectRule registry ctx c m result := by
  obtain ⟨contents, failure, m₁, hReads⟩ :=
    exists_inOrder (fun r => ctx.readFile r.inputPath) (fun r => .inputRead c.command r.inputPath)
      c.inputs m
  match failure, hResolve : registry.resolve ctx.env c.command with
  | some (r, fault), _ => exact ⟨_, .unread hReads⟩
  | none, none => exact ⟨_, .unresolved hReads hResolve⟩
  | none, some command =>
      let seen := { ctx with stdin := contents.getLastD ctx.stdin }
      have hReady : Ready registry ctx c m seen command m₁ := ⟨⟨contents, hReads, rfl⟩, hResolve⟩
      match hAnswer : answerOf (call registry seen c command) m₁.host with
      | .error (.fault fault) => exact ⟨_, .faulted hReady hAnswer⟩
      | .error .interrupt => exact ⟨_, .letOut hReady hAnswer (.inl rfl)⟩
      | .error .cancelled => exact ⟨_, .letOut hReady hAnswer (.inr rfl)⟩
      | .ok none => exact ⟨_, .unusable hReady hAnswer⟩
      | .ok (some result) =>
          obtain ⟨sent, failure, m', hSends⟩ :=
            exists_inOrder (ctx.sendTo result.stdout)
              (fun r => .redirected r.kind c.command (ctx.resolve r.file)) c.outputs
              (called registry seen c command m₁)
          exact ⟨_, .answered hReady hAnswer hSends⟩

/-- A command with the same name, arguments and inputs is ready whenever this one is. -/
theorem Ready.withRedirects {seen : Context σ} {command : Command σ} {m₁ : Machine σ}
    (h : Ready registry ctx c m seen command m₁)
    (hInputs : ({ c with redirects := rs } : Simple).inputs = c.inputs) :
    Ready registry ctx { c with redirects := rs } m seen command m₁ := by
  obtain ⟨⟨contents, hReads, hSeen⟩, hResolve⟩ := h
  exact ⟨⟨contents, hInputs ▸ hReads, hSeen⟩, hResolve⟩

/-- The cases of the rule that come before the outputs do not speak of them. -/
theorem RedirectRule.withRedirects {result : EStateM.Result Raised (Machine σ) Outcome}
    (h : RedirectRule registry ctx c m result) (hSilent : ¬ Answers registry ctx c m)
    (hInputs : ({ c with redirects := rs } : Simple).inputs = c.inputs) :
    RedirectRule registry ctx { c with redirects := rs } m result := by
  cases h with
  | unread hReads => exact .unread (hInputs ▸ hReads)
  | unresolved hReads hResolve => exact .unresolved (hInputs ▸ hReads) hResolve
  | faulted hReady hAnswer => exact .faulted (hReady.withRedirects hInputs) hAnswer
  | letOut hReady hAnswer hUnmet => exact .letOut (hReady.withRedirects hInputs) hAnswer hUnmet
  | unusable hReady hAnswer => exact .unusable (hReady.withRedirects hInputs) hAnswer
  | answered hReady hAnswer _ => exact absurd ⟨_, _, _, _, hReady, hAnswer⟩ hSilent

/--
**One rule for every mix of redirections.** What a command does depends on the list of its
inputs and the list of its outputs, not on how the two are mixed. If it is not called, or gives
no usable outcome, then it ends as if it had no outputs. And it ends, in the one way that the
rule says: the inputs are read in order, the command sees the last of them, its printed text is
sent to the outputs in order up to and including the first that fails, and a text that was sent
is not printed.
-/
theorem runSimple_eq_iff_redirectRule (registry : Registry (Command σ)) (ctx : Context σ)
    (c : Simple) :
    (∀ rs : List Redirect, rs.filter Redirect.isInput = c.inputs →
      rs.filter (!·.isInput) = c.outputs →
      runSimple registry ctx { c with redirects := rs } = runSimple registry ctx c) ∧
    (∀ m : Machine σ, ¬ Answers registry ctx c m →
      runSimple registry ctx { c with redirects := c.inputs } m = runSimple registry ctx c m) ∧
    ∀ (m : Machine σ) (result : EStateM.Result Raised (Machine σ) Outcome),
      runSimple registry ctx c m = result ↔ RedirectRule registry ctx c m result := by
  refine ⟨fun rs hInputs hOutputs => ?_, fun m hSilent => ?_, fun m result => ?_⟩
  · have hSameInputs : ({ c with redirects := rs } : Simple).inputs = c.inputs := hInputs
    have hSameOutputs : ({ c with redirects := rs } : Simple).outputs = c.outputs := hOutputs
    simp only [runSimple, hSameInputs, hSameOutputs, dispatch]
  · obtain ⟨result, hRule⟩ := exists_redirectRule registry ctx c m
    have hInputs : ({ c with redirects := c.inputs } : Simple).inputs = c.inputs :=
      List.filter_eq_self.mpr fun r hMem => (List.mem_filter.mp hMem).2
    exact (hRule.withRedirects hSilent hInputs).runSimple_eq.trans hRule.runSimple_eq.symm
  · constructor
    · rintro rfl
      obtain ⟨result, hRule⟩ := exists_redirectRule registry ctx c m
      rw [hRule.runSimple_eq]
      exact hRule
    · exact RedirectRule.runSimple_eq

end Rule

/-- The command `cat >> log > "<note" > /tmp >> late`. -/
def mixedCommand : Simple :=
  ⟨"cat", [], [⟨.append, "log"⟩, ⟨.write, "<note"⟩, ⟨.write, "/tmp"⟩, ⟨.append, "late"⟩]⟩

/-- The command `nowhere > "<note" > out`. -/
def unknownCommand : Simple :=
  ⟨"nowhere", [], [⟨.write, "<note"⟩, ⟨.write, "out"⟩]⟩

/-- The second output is a directory, so the first is written and the third is not. -/
theorem runSimple_mixedCommand :
    let sorted := [⟨.write, "<note"⟩, ⟨.append, "log"⟩, ⟨.write, "/tmp"⟩, ⟨.append, "late"⟩]
    let action := runSimple Builtin.registry noteContext mixedCommand
    let m' := endState action noteMachine
    (sorted.filter Redirect.isInput = mixedCommand.inputs ∧
      sorted.filter (!·.isInput) = mixedCommand.outputs ∧
      runSimple Builtin.registry noteContext { mixedCommand with redirects := sorted } = action) ∧
    (¬ Answers Builtin.registry noteContext unknownCommand noteMachine ∧
      runSimple Builtin.registry noteContext
          { unknownCommand with redirects := unknownCommand.inputs } noteMachine =
        runSimple Builtin.registry noteContext unknownCommand noteMachine) ∧
    RedirectRule Builtin.registry noteContext mixedCommand noteMachine (action noteMachine) ∧
    (answerOf action noteMachine).toOption =
      some { stderr := "/tmp: Is a directory\n", status := 1 } ∧
    m'.store.files.get? (.ofText "/tmp/log") = some "kept" ∧
    m'.store.files.get? (.ofText "/tmp/late") = none := by
  intro sorted action m'
  obtain ⟨hMix, -, hRule⟩ :=
    runSimple_eq_iff_redirectRule Builtin.registry noteContext mixedCommand
  obtain ⟨-, hSilent, -⟩ :=
    runSimple_eq_iff_redirectRule Builtin.registry noteContext unknownCommand
  have hInputs : sorted.filter Redirect.isInput = mixedCommand.inputs := by decide
  have hOutputs : sorted.filter (!·.isInput) = mixedCommand.outputs := by decide
  have hUnknown : ¬ Answers Builtin.registry noteContext unknownCommand noteMachine := by
    rintro ⟨_, command, _, _, ⟨-, hResolve⟩, -⟩
    let registry : Registry (Command FileTree) := Builtin.registry
    have hNone : (registry.resolve noteContext.env unknownCommand.command).isNone = true := by
      decide +kernel
    rw [hResolve] at hNone
    cases hNone
  refine ⟨⟨hInputs, hOutputs, hMix sorted hInputs hOutputs⟩, ⟨hUnknown, hSilent _ hUnknown⟩,
    (hRule noteMachine _).mp rfl, ?_⟩
  decide +kernel

end Execute

end MemShell
