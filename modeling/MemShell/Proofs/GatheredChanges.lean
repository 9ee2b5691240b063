import MemShell.Cli
import MemShell.Proofs.MergedChanges
import MemShell.Proofs.TreeRuns

/-!
# Changes along the run of a tree

While a tree runs, each command hands back the changes it wants made, and the
run merges them on the way up; the session makes the merged changes once. The
trace of the machine says what really happened: which commands ended with an
outcome, in which order, and with which changes. This module compares the two,
the changes that a run gives back and those of its commands made one after the
other.

The comparison has two halves. The first is about running. However a tree ends,
with or without a signal, a failed file or a chain that was cut short, its
changes are those of the commands that ended, merged in order along some tree of
merges (`Gathered`, `gathered_run`); no command is left out and none counts
twice. The second is about merging, name by name: on an alias and on the status
to leave with the last command that asks for anything wins, and on a variable too
(`Gathered.onVariable_of_nodup`), with the one exception that merging itself has:
the changes given back may still list a variable for removal although the command
that asked last set it (`Gathered.onVariable`).

## Main results

* `gathered_run` — what a run gives back is gathered from its commands.
* `apply_run_iff` — when making the changes of a run is making those of its
  commands one after the other.
-/

namespace MemShell

open Changes

/-! ## What the trace says about a run -/

/-- The changes of a command that ended with an outcome. -/
def Event.changes? : Event → Option Changes
  | .ended _ (.outcome o) _ => some o.changes
  | _ => none

/-- The changes of the commands that ended with an outcome between two states of
a machine, in order. -/
def returnedChanges {σ : Type} (m m' : Machine σ) : List Changes :=
  (m'.trace.toList.drop m.trace.size).filterMap Event.changes?

/-- The second machine has seen more events, and these changes were returned in
them. -/
def Returned {σ : Type} (m m' : Machine σ) (cs : List Changes) : Prop :=
  ∃ es, m'.trace.toList = m.trace.toList ++ es ∧ es.filterMap Event.changes? = cs

namespace Returned

variable {σ : Type} {m m₁ m₂ : Machine σ} {cs ds : List Changes}

theorem refl (m : Machine σ) : Returned m m [] :=
  ⟨[], by simp, rfl⟩

theorem trans (h : Returned m m₁ cs) (h' : Returned m₁ m₂ ds) : Returned m m₂ (cs ++ ds) := by
  obtain ⟨es, hTrace, rfl⟩ := h
  obtain ⟨es', hTrace', rfl⟩ := h'
  refine ⟨es ++ es', ?_, List.filterMap_append⟩
  rw [hTrace', hTrace, List.append_assoc]

theorem log (m : Machine σ) (e : Event) : Returned m (m.log e) e.changes?.toList := by
  refine ⟨[e], by simp [Machine.log], ?_⟩
  cases hChanges : e.changes? <;> simp [hChanges]

/-- What a command or a store notes is never mistaken for the end of a command. -/
theorem absorb (m : Machine σ) (h : Host σ) : Returned m (m.absorb h) [] := by
  refine ⟨h.notes.toList.map Event.noted, by simp [Machine.absorb], ?_⟩
  simp [List.filterMap_map, Function.comp_def, Event.changes?]

theorem eq_returnedChanges (h : Returned m m₁ cs) : returnedChanges m m₁ = cs := by
  obtain ⟨es, hTrace, rfl⟩ := h
  unfold returnedChanges
  rw [hTrace, ← Array.length_toList, List.drop_left]

end Returned

/-! ## Changes gathered along a run -/

/-- The second is what the first give when they are merged in order. -/
inductive Gathered : List Changes → Changes → Prop
  | nothing : Gathered [] {}
  | single (c : Changes) : Gathered [c] c
  | merge {cs ds : List Changes} {a b : Changes} :
      Gathered cs a → Gathered ds b → Gathered (cs ++ ds) (a.merge b)

namespace Execute

variable {ε σ α β : Type}

private theorem returned_attempt {ε' : Type} {action : HostM ε' σ α} {m m' : Machine σ}
    {answer : Except ε' α} (h : (attempt (onHost action) : MachineM ε σ _) m = .ok answer m') :
    Returned m m' [] := by
  unfold attempt onHost at h
  cases hRun : action m.host with
  | ok a host =>
      rw [hRun] at h
      obtain ⟨-, rfl⟩ := EStateM.Result.ok.inj h
      exact Returned.absorb m host
  | error e host =>
      rw [hRun] at h
      obtain ⟨-, rfl⟩ := EStateM.Result.ok.inj h
      exact Returned.absorb m host

private theorem returned_readInputs {ctx : Context σ} {command : String} (rs : List Redirect) :
    ∀ {stdin : String} {m m' : Machine σ} {answer : Except String String},
      (readInputs ctx command rs stdin : MachineM ε σ _) m = .ok answer m' →
      Returned m m' [] := by
  induction rs with
  | nil =>
      intro stdin m m' answer h
      obtain ⟨-, rfl⟩ := EStateM.Result.ok.inj h
      exact Returned.refl m
  | cons r rs ih =>
      intro stdin m m' answer h
      unfold readInputs at h
      cases hStorage : ctx.storage with
      | none =>
          rw [hStorage] at h
          obtain ⟨-, rfl⟩ := EStateM.Result.ok.inj h
          exact Returned.refl m
      | some storage =>
          rw [hStorage] at h
          obtain ⟨read, m₁, hRead, hRest⟩ := exists_of_bind_eq_ok h
          have hFirst := returned_attempt hRead
          cases read with
          | error fault =>
              obtain ⟨-, rfl⟩ := EStateM.Result.ok.inj hRest
              exact hFirst
          | ok content =>
              obtain ⟨u, m₂, hEmit, hRest⟩ := exists_of_bind_eq_ok hRest
              obtain ⟨-, rfl⟩ := EStateM.Result.ok.inj hEmit
              exact (hFirst.trans (Returned.log m₁ _)).trans (ih hRest)

private theorem returned_sendOutput {ctx : Context σ} {storage : Storage σ}
    {command text : String} (rs : List Redirect) :
    ∀ {m m' : Machine σ} {answer : Except String Unit},
      (sendOutput ctx storage command text rs : MachineM ε σ _) m = .ok answer m' →
      Returned m m' [] := by
  induction rs with
  | nil =>
      intro m m' answer h
      obtain ⟨-, rfl⟩ := EStateM.Result.ok.inj h
      exact Returned.refl m
  | cons r rs ih =>
      intro m m' answer h
      unfold sendOutput at h
      obtain ⟨sent, m₁, hSend, hRest⟩ := exists_of_bind_eq_ok h
      have hFirst := returned_attempt hSend
      cases sent with
      | error fault =>
          obtain ⟨-, rfl⟩ := EStateM.Result.ok.inj hRest
          exact hFirst
      | ok _ =>
          obtain ⟨u, m₂, hEmit, hRest⟩ := exists_of_bind_eq_ok hRest
          obtain ⟨-, rfl⟩ := EStateM.Result.ok.inj hEmit
          exact (hFirst.trans (Returned.log m₁ _)).trans (ih hRest)

/-- Where the printed text goes does not matter to the changes, and neither does
a file that fails. -/
private theorem returned_deliver {ctx : Context σ} {command : String} {outputs : List Redirect}
    {result o : Outcome} {m m' : Machine σ}
    (h : (deliver ctx command outputs result : MachineM ε σ _) m = .ok o m') :
    Returned m m' [] ∧ o.changes = result.changes := by
  unfold deliver at h
  match outputs, hStorage : ctx.storage with
  | [], _ =>
      obtain ⟨rfl, rfl⟩ := EStateM.Result.ok.inj h
      exact ⟨Returned.refl m, rfl⟩
  | r :: rs, none =>
      rw [hStorage] at h
      obtain ⟨rfl, rfl⟩ := EStateM.Result.ok.inj h
      exact ⟨Returned.refl m, rfl⟩
  | r :: rs, some storage =>
      rw [hStorage] at h
      obtain ⟨sent, m₁, hSend, hRest⟩ := exists_of_bind_eq_ok h
      have hSent := returned_sendOutput _ hSend
      cases sent with
      | error message =>
          obtain ⟨rfl, rfl⟩ := EStateM.Result.ok.inj hRest
          exact ⟨hSent, rfl⟩
      | ok _ =>
          obtain ⟨rfl, rfl⟩ := EStateM.Result.ok.inj hRest
          exact ⟨hSent, rfl⟩

private theorem returned_dispatch {registry : Registry (Command σ)} {ctx : Context σ}
    {c : Simple} {command : Command σ} {m m' : Machine σ}
    {answer : Except Raised (Option Outcome)}
    (h : (dispatch registry ctx c command : MachineM ε σ _) m = .ok answer m') :
    Returned m m' (Event.changes? (.ended c.command (.ofAnswer answer) m'.isStopped)).toList := by
  unfold dispatch at h
  obtain ⟨u, m₁, hEmit, h⟩ := exists_of_bind_eq_ok h
  obtain ⟨-, rfl⟩ := EStateM.Result.ok.inj hEmit
  obtain ⟨reply, m₂, hCall, h⟩ := exists_of_bind_eq_ok h
  obtain ⟨u', m₃, hLog, h⟩ := exists_of_bind_eq_ok h
  obtain ⟨-, rfl⟩ := EStateM.Result.ok.inj hLog
  obtain ⟨rfl, rfl⟩ := EStateM.Result.ok.inj h
  have hStarted : Returned m (m.log (.dispatched c.command c.args ctx.toView)) [] :=
    Returned.log m _
  exact (hStarted.trans (returned_attempt hCall)).trans (Returned.log m₂ _)

/-- A command that ends with an outcome is all that its run gathers; otherwise
the run asks for nothing. -/
theorem gathered_runSimple {registry : Registry (Command σ)} {ctx : Context σ} {c : Simple}
    {m m' : Machine σ} {o : Outcome} (h : runSimple registry ctx c m = .ok o m') :
    ∃ cs, Returned m m' cs ∧ Gathered cs o.changes := by
  unfold runSimple at h
  obtain ⟨input, m₁, hInput, h⟩ := exists_of_bind_eq_ok h
  have hRead := returned_readInputs _ hInput
  cases input with
  | error message =>
      obtain ⟨rfl, rfl⟩ := EStateM.Result.ok.inj h
      exact ⟨[], hRead, .nothing⟩
  | ok stdin =>
      cases hResolve : registry.resolve ctx.env c.command with
      | none =>
          simp only [hResolve] at h
          obtain ⟨rfl, rfl⟩ := EStateM.Result.ok.inj h
          exact ⟨[], hRead, .nothing⟩
      | some command =>
          simp only [hResolve] at h
          obtain ⟨answer, m₂, hDispatch, h⟩ := exists_of_bind_eq_ok h
          have hBoth := hRead.trans (returned_dispatch hDispatch)
          match answer with
          | .ok (some result) =>
              obtain ⟨hDelivered, hChanges⟩ := returned_deliver h
              rw [hChanges]
              exact ⟨[result.changes], hBoth.trans hDelivered, .single _⟩
          | .ok none =>
              obtain ⟨rfl, rfl⟩ := EStateM.Result.ok.inj h
              exact ⟨[], hBoth, .nothing⟩
          | .error (.fault fault) =>
              obtain ⟨rfl, rfl⟩ := EStateM.Result.ok.inj h
              exact ⟨[], hBoth, .nothing⟩
          | .error .interrupt => cases h
          | .error .cancelled => cases h

/-- Stopping gives back the changes so far, and starts nothing. -/
private theorem unlessStopped_eq_ok {changes : Changes} {action : MachineM ε σ Outcome}
    {m m' : Machine σ} {o : Outcome} (h : unlessStopped changes action m = .ok o m') :
    (o.changes = changes ∧ m' = m.log .interrupted) ∨ action m = .ok o m' := by
  unfold unlessStopped at h
  by_cases hStopped : m.isStopped = true
  · rw [if_pos hStopped] at h
    obtain ⟨rfl, rfl⟩ := EStateM.Result.ok.inj h
    exact .inl ⟨rfl, rfl⟩
  · rw [if_neg hStopped] at h
    exact .inr h

/-- The stages of a pipeline add to what was gathered before them. -/
theorem gathered_runStages {registry : Registry (Command σ)} {ctx : Context σ} {total : Nat}
    (stages : List Simple) :
    ∀ {index : Nat} {stdin : String} {last o : Outcome} {m m' : Machine σ}
      {before : List Changes}, Gathered before last.changes →
      runStages registry ctx total index stages stdin last m = .ok o m' →
      ∃ cs, Returned m m' cs ∧ Gathered (before ++ cs) o.changes := by
  induction stages with
  | nil =>
      intro index stdin last o m m' before hBefore h
      obtain ⟨rfl, rfl⟩ := EStateM.Result.ok.inj h
      exact ⟨[], Returned.refl m, by simpa using hBefore⟩
  | cons stage rest ih =>
      intro index stdin last o m m' before hBefore h
      unfold runStages at h
      rcases unlessStopped_eq_ok h with ⟨hChanges, rfl⟩ | h
      · exact ⟨[], Returned.log _ _, by simpa [hChanges] using hBefore⟩
      · obtain ⟨result, m₁, hStage, h⟩ := exists_of_bind_eq_ok h
        obtain ⟨cs, hReturned, hGathered⟩ := gathered_runSimple hStage
        -- between two stages at most one event is written, and it returns nothing
        obtain ⟨m₂, hQuiet, hRest⟩ : ∃ m₂, Returned m₁ m₂ [] ∧
            runStages registry ctx total (index + 1) rest (handOver result)
              { result with changes := last.changes.merge result.changes } m₂ = .ok o m' := by
          cases hMore : rest.isEmpty with
          | true =>
              rw [hMore] at h
              exact ⟨m₁, Returned.refl m₁, h⟩
          | false =>
              rw [hMore] at h
              obtain ⟨u, m₂, hEmit, h⟩ := exists_of_bind_eq_ok h
              obtain ⟨-, rfl⟩ := EStateM.Result.ok.inj hEmit
              exact ⟨_, Returned.log m₁ _, h⟩
        obtain ⟨ds, hReturned', hGathered'⟩ := ih (hBefore.merge hGathered) hRest
        refine ⟨cs ++ ds, ?_, by simpa using hGathered'⟩
        simpa using (hReturned.trans hQuiet).trans hReturned'

/-- **What a run gives back** is gathered from the commands that ended in it. -/
theorem gathered_run {registry : Registry (Command σ)} {ctx : Context σ} (tree : Tree) :
    ∀ {m m' : Machine σ} {o : Outcome}, run registry ctx tree m = .ok o m' →
      ∃ cs, Returned m m' cs ∧ Gathered cs o.changes := by
  induction tree with
  | simple c =>
      intro m m' o h
      unfold run at h
      rcases unlessStopped_eq_ok h with ⟨hChanges, rfl⟩ | h
      · exact ⟨[], Returned.log _ _, hChanges ▸ .nothing⟩
      · exact gathered_runSimple h
  | pipeline stages =>
      intro m m' o h
      unfold run at h
      rcases unlessStopped_eq_ok h with ⟨hChanges, rfl⟩ | h
      · exact ⟨[], Returned.log _ _, hChanges ▸ .nothing⟩
      · exact gathered_runStages stages .nothing h
  | logical left connective right ihLeft ihRight =>
      intro m m' o h
      unfold run at h
      rcases unlessStopped_eq_ok h with ⟨hChanges, rfl⟩ | h
      · exact ⟨[], Returned.log _ _, hChanges ▸ .nothing⟩
      · obtain ⟨first, m₁, hLeft, h⟩ := exists_of_bind_eq_ok h
        obtain ⟨cs, hReturned, hGathered⟩ := ihLeft hLeft
        cases hStops : stopsAfter connective first with
        | true =>
            rw [hStops] at h
            obtain ⟨rfl, rfl⟩ := EStateM.Result.ok.inj h
            exact ⟨cs, hReturned, hGathered⟩
        | false =>
            rw [hStops] at h
            rcases unlessStopped_eq_ok h with ⟨hChanges, rfl⟩ | h
            · have hQuiet : Returned m₁ (m₁.log .interrupted) [] := Returned.log m₁ _
              exact ⟨cs, by simpa using hReturned.trans hQuiet, hChanges ▸ hGathered⟩
            · obtain ⟨second, m₂, hRight, h⟩ := exists_of_bind_eq_ok h
              obtain ⟨rfl, rfl⟩ := EStateM.Result.ok.inj h
              obtain ⟨ds, hReturned', hGathered'⟩ := ihRight hRight
              exact ⟨cs ++ ds, hReturned.trans hReturned', hGathered.merge hGathered'⟩

end Execute

/-! ## What gathered changes ask for -/

/-- What the last of several changes asks for that asks for anything. -/
def lastAsked {α : Type} (f : Changes → Option α) (cs : List Changes) : Option α :=
  cs.reverse.findSome? f

theorem lastAsked_append {α : Type} (f : Changes → Option α) (cs ds : List Changes) :
    lastAsked f (cs ++ ds) = (lastAsked f ds).or (lastAsked f cs) := by
  unfold lastAsked
  rw [List.reverse_append, List.findSome?_append]

theorem lastAsked_singleton {α : Type} (f : Changes → Option α) (c : Changes) :
    lastAsked f [c] = f c := by
  show (match f c with | some b => some b | none => none) = f c
  cases f c <;> rfl

namespace Gathered

variable {cs : List Changes} {a : Changes}

theorem onAlias (h : Gathered cs a) (name : String) :
    a.onAlias name = lastAsked (·.onAlias name) cs := by
  induction h with
  | nothing => rfl
  | single c => rw [lastAsked_singleton]
  | merge _ _ ihLeft ihRight => rw [onAlias_merge, lastAsked_append, ihLeft, ihRight]

theorem exitCode (h : Gathered cs a) : a.exitCode = lastAsked Changes.exitCode cs := by
  induction h with
  | nothing => rfl
  | single c => rw [lastAsked_singleton]
  | @merge cs ds a b _ _ ihLeft ihRight =>
      rw [lastAsked_append, ← ihLeft, ← ihRight]
      rfl

/-- Either the last command that asks for anything wins, or it sets a variable and
the changes remove it all the same. -/
theorem onVariable (h : Gathered cs a) (key : String) :
    a.onVariable key = lastAsked (·.onVariable key) cs ∨
      (a.onVariable key = some .remove ∧
        ∃ value, lastAsked (·.onVariable key) cs = some (.set value)) := by
  induction h with
  | nothing => exact .inl rfl
  | single c =>
      rw [lastAsked_singleton]
      exact .inl rfl
  | @merge cs ds a b _ _ ihLeft ihRight =>
      rw [lastAsked_append]
      rcases ihRight with hRight | ⟨hRight, value, hLast⟩
      · rw [← hRight]
        -- what the right side asks for decides, unless it asks for nothing
        match hLater : b.onVariable key with
        | none =>
            rw [onVariable_merge_none hLater]
            exact ihLeft
        | some .remove => exact .inl (onVariable_merge_remove hLater)
        | some (.set value) =>
            rw [onVariable_merge_set hLater]
            by_cases hTwice : 1 < a.unsets.count key
            · exact .inr ⟨if_pos hTwice, value, rfl⟩
            · exact .inl (if_neg hTwice)
      · rw [hLast]
        exact .inr ⟨onVariable_merge_remove hRight, value, rfl⟩

/-- If no command lists a variable twice, the last one that asks for anything wins. -/
theorem onVariable_of_nodup (h : Gathered cs a) (hNodup : ∀ c ∈ cs, c.unsets.Nodup) :
    a.unsets.Nodup ∧ ∀ key, a.onVariable key = lastAsked (·.onVariable key) cs := by
  induction h with
  | nothing => exact ⟨List.nodup_nil, fun _ => rfl⟩
  | single c =>
      refine ⟨hNodup c (by simp), fun key => ?_⟩
      rw [lastAsked_singleton]
  | merge _ _ ihLeft ihRight =>
      obtain ⟨hLeft, hLeftAsked⟩ := ihLeft fun c hc => hNodup c (by simp [hc])
      obtain ⟨-, hRightAsked⟩ := ihRight fun c hc => hNodup c (by simp [hc])
      refine ⟨nodup_unsets_merge hLeft _, fun key => ?_⟩
      rw [onVariable_merge_of_nodup hLeft, lastAsked_append, hLeftAsked, hRightAsked]

theorem plain (h : Gathered cs a)
    (hPlain : ∀ c ∈ cs, c.chdir = none ∧ c.sourceLines = []) :
    a.chdir = none ∧ a.sourceLines = [] := by
  induction h with
  | nothing => exact ⟨rfl, rfl⟩
  | single c => exact hPlain c (by simp)
  | @merge cs ds a b _ _ ihLeft ihRight =>
      obtain ⟨hLeftDir, hLeftLines⟩ := ihLeft fun c hc => hPlain c (by simp [hc])
      obtain ⟨hRightDir, hRightLines⟩ := ihRight fun c hc => hPlain c (by simp [hc])
      refine ⟨?_, ?_⟩
      · show b.chdir.or a.chdir = none
        rw [hLeftDir, hRightDir]
        rfl
      · show a.sourceLines ++ b.sourceLines = []
        rw [hLeftLines, hRightLines]
        rfl

end Gathered

/-! ## Making changes -/

theorem Changes.Action.after_or (later earlier : Option Action) (before : Option String) :
    Action.after (later.or earlier) before = Action.after later (Action.after earlier before) := by
  match later with
  | none => rfl
  | some (.set value) => rfl
  | some .remove => rfl

namespace Session

variable {σ : Type}

/-- Makes several changes one after the other. -/
def applyEach (shell : Shell σ) : List Changes → SessionM σ Unit
  | [] => return ()
  | c :: cs => do
      let _ ← apply shell c
      applyEach shell cs

/-- The second session is the first after these actions on its variables and
aliases, left with this status if there is one. -/
structure Made (s s' : Session σ) (onVariable onAlias : String → Option Action)
    (code : Option Int) : Prop where
  env : ∀ key, s'.env.get? key = Action.after (onVariable key) (s.env.get? key)
  aliases : ∀ name, s'.aliases.get? name = Action.after (onAlias name) (s.aliases.get? name)
  exitRequested : s'.exitRequested = (s.exitRequested || code.isSome)
  exitCode : s'.exitCode = code.getD s.exitCode

theorem made_apply (shell : Shell σ) {c : Changes} (hDir : c.chdir = none)
    (hLines : c.sourceLines = []) (s : Session σ) :
    ∃ s', apply shell c s = .ok none s' ∧ Made s s' c.onVariable c.onAlias c.exitCode := by
  obtain ⟨exports, unsets, aliases, unaliases, clearAliases, chdir, sourceLines, code⟩ := c
  cases hDir
  cases hLines
  cases code with
  | none =>
      refine ⟨_, rfl, ⟨fun key => get?_changedEnv _ _ key, fun name => get?_changedAliases _ _ name,
        ?_, rfl⟩⟩
      show s.exitRequested = _
      simp
  | some code =>
      refine ⟨_, rfl, ⟨fun key => get?_changedEnv _ _ key, fun name => get?_changedAliases _ _ name,
        ?_, rfl⟩⟩
      show true = _
      simp

theorem Made.trans {s s₁ s₂ : Session σ} {onVar onVar' onName onName' : String → Option Action}
    {code code' : Option Int} (h : Made s s₁ onVar onName code)
    (h' : Made s₁ s₂ onVar' onName' code') :
    Made s s₂ (fun key => (onVar' key).or (onVar key))
      (fun name => (onName' name).or (onName name)) (code'.or code) where
  env := fun key => by rw [h'.env, h.env, Action.after_or]
  aliases := fun name => by rw [h'.aliases, h.aliases, Action.after_or]
  exitRequested := by
    rw [h'.exitRequested, h.exitRequested, Bool.or_assoc]
    cases code' <;> simp
  exitCode := by
    rw [h'.exitCode, h.exitCode]
    cases code' <;> rfl

theorem made_applyEach (shell : Shell σ) (cs : List Changes) :
    ∀ s : Session σ, (∀ c ∈ cs, c.chdir = none ∧ c.sourceLines = []) →
      ∃ s', applyEach shell cs s = .ok () s' ∧
        Made s s' (fun key => lastAsked (·.onVariable key) cs)
          (fun name => lastAsked (·.onAlias name) cs) (lastAsked Changes.exitCode cs) := by
  induction cs with
  | nil =>
      intro s _
      exact ⟨s, rfl, ⟨fun _ => rfl, fun _ => rfl, (Bool.or_false _).symm, rfl⟩⟩
  | cons c cs ih =>
      intro s hPlain
      obtain ⟨hDir, hLines⟩ := hPlain c (by simp)
      obtain ⟨s₁, hApply, hMade⟩ := made_apply shell hDir hLines s
      obtain ⟨s₂, hRest, hMadeRest⟩ := ih s₁ fun d hd => hPlain d (by simp [hd])
      refine ⟨s₂, ?_, ?_⟩
      · show EStateM.bind (apply shell c) (fun _ => applyEach shell cs) s = _
        rw [EStateM.bind, hApply]
        exact hRest
      · have hCons : ∀ {α : Type} (f : Changes → Option α),
            lastAsked f (c :: cs) = (lastAsked f cs).or (f c) := by
          intro α f
          rw [← List.singleton_append, lastAsked_append, lastAsked_singleton]
        simp only [hCons]
        exact hMade.trans hMadeRest

end Session

/-! ## A run and its commands -/

/--
**Changes along a run.** Let a tree run to an outcome, and let none of its
commands ask for another directory or for lines to run. Making the changes of the
outcome, and making the changes of the commands one after the other in the order
in which they ended, give the same aliases and the same exit request. They give
the same variables exactly if the outcome lists no variable for removal that the
command that asked for it last had set; and that is so whenever no command lists a
variable twice.
-/
theorem apply_run_iff {σ τ : Type} {registry : Registry (Command σ)} {ctx : Context σ}
    {tree : Tree} {m m' : Machine σ} {o : Outcome}
    (hRun : Execute.run registry ctx tree m = .ok o m')
    (hPlain : ∀ c ∈ returnedChanges m m', c.chdir = none ∧ c.sourceLines = [])
    (shell : Shell τ) (s : Session τ) :
    ∃ s₁ s₂, Session.apply shell o.changes s = .ok none s₁ ∧
      Session.applyEach shell (returnedChanges m m') s = .ok () s₂ ∧
      (∀ name, s₁.aliases.get? name = s₂.aliases.get? name) ∧
      s₁.exitRequested = s₂.exitRequested ∧ s₁.exitCode = s₂.exitCode ∧
      ((∀ key, s₁.env.get? key = s₂.env.get? key) ↔
        ∀ key ∈ o.changes.unsets, ∀ value,
          lastAsked (·.onVariable key) (returnedChanges m m') ≠ some (.set value)) ∧
      ((∀ c ∈ returnedChanges m m', c.unsets.Nodup) →
        ∀ key, s₁.env.get? key = s₂.env.get? key) := by
  obtain ⟨cs, hReturned, hGathered⟩ := Execute.gathered_run tree hRun
  rw [hReturned.eq_returnedChanges] at hPlain ⊢
  obtain ⟨hDir, hLines⟩ := hGathered.plain hPlain
  obtain ⟨s₁, hApply, hMade⟩ := Session.made_apply shell hDir hLines s
  obtain ⟨s₂, hEach, hMadeEach⟩ := Session.made_applyEach shell cs s hPlain
  refine ⟨s₁, s₂, hApply, hEach, ?_, ?_, ?_, ⟨?_, ?_⟩, ?_⟩
  · intro name
    rw [hMade.aliases, hMadeEach.aliases, hGathered.onAlias]
  · rw [hMade.exitRequested, hMadeEach.exitRequested, hGathered.exitCode]
  · rw [hMade.exitCode, hMadeEach.exitCode, hGathered.exitCode]
  · -- a variable that is set last and still listed is gone on one side only
    intro hSame key hListed value hLast
    have hRemove : o.changes.onVariable key = some .remove := by
      simp [onVariable, hListed]
    have hKey := hSame key
    rw [hMade.env, hMadeEach.env, hRemove, hLast] at hKey
    exact absurd hKey (by simp [Action.after])
  · intro hNone key
    rw [hMade.env, hMadeEach.env]
    rcases hGathered.onVariable key with hEq | ⟨hRemove, value, hLast⟩
    · rw [hEq]
    · have hListed : key ∈ o.changes.unsets := by
        by_contra hKept
        simp [onVariable, hKept] at hRemove
      exact absurd hLast (hNone key hListed value)
  · intro hNodup key
    rw [hMade.env, hMadeEach.env, (hGathered.onVariable_of_nodup hNodup).2]

/-- `unset A A && export A=1`. -/
def unsetTwice : Tree :=
  .logical (.simple ⟨"unset", ["A", "A"], []⟩) .and (.simple ⟨"export", ["A=1"], []⟩)

/-- A session of the program, as it starts. -/
def firstSession : Session FileTree :=
  Cli.newSession {}

/-- Setting takes back one of two listings; the other one removes the variable. -/
theorem apply_run_unsetTwice :
    ∃ o m', Execute.run Cli.shell.registry (firstSession.context Cli.shell) unsetTwice
        firstSession.machine = .ok o m' ∧
      (∀ c ∈ returnedChanges firstSession.machine m', c.chdir = none ∧ c.sourceLines = []) ∧
      ∃ s₁ s₂, Session.apply Cli.shell o.changes firstSession = .ok none s₁ ∧
        Session.applyEach Cli.shell (returnedChanges firstSession.machine m') firstSession =
          .ok () s₂ ∧
        ¬ ∀ key, s₁.env.get? key = s₂.env.get? key := by
  obtain ⟨o, m', hRun, hPlain, hListed, hLast⟩ : ∃ o m',
      Execute.run Cli.shell.registry (firstSession.context Cli.shell) unsetTwice
        firstSession.machine = .ok o m' ∧
      (∀ c ∈ returnedChanges firstSession.machine m', c.chdir = none ∧ c.sourceLines = []) ∧
      "A" ∈ o.changes.unsets ∧
      lastAsked (·.onVariable "A") (returnedChanges firstSession.machine m') =
        some (.set "1") :=
    ⟨_, _, rfl, by decide +kernel, by decide +kernel, by decide +kernel⟩
  obtain ⟨s₁, s₂, hApply, hEach, -, -, -, hIff, -⟩ :=
    apply_run_iff hRun hPlain Cli.shell firstSession
  refine ⟨o, m', hRun, hPlain, s₁, s₂, hApply, hEach, ?_⟩
  rw [hIff]
  intro hNone
  exact hNone "A" hListed "1" hLast

end MemShell
