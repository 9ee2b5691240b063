import Mathlib.Logic.Relation
import MemShell.Execute

/-!
# What running a tree can do

A run goes from one machine to another and lets something out or nothing. This
module says once what lies between the two machines, so that a law of every run
is proved from its steps and the functions that run trees are not opened again.

One command (`SimpleRun`): its inputs are read; then, if its name stands for a
command, that command is called; then, if it ended in a way that is met here,
its outputs are written. A tree (`TreeRun`): some of its commands are run from left
to right, each of them only while the signal is down, and where the signal is up
the trace says that something was held back. What is let out ends the run.

The trace only grows. `Since` names the events that were added, and most of them
are *quiet*: they neither start nor end a command or a tree and hold nothing back.

## Main results

* `Composes.leads_bind` — a relation that composes holds of a sequence of actions
  if it holds of each of them.
* `simpleRun_runSimple`, `treeRun_run` — what the functions do is described by the
  relations.
* `TreeRun.lift` — a relation that composes holds of every run of a tree if it
  holds of the steps.
* `TreeRun.ofTree` — the events that a tree adds to the trace.
-/

namespace MemShell

open Relation (ReflTransGen)

/-! ## How an action ends -/

section Endings

variable {ε S α β : Type}

/-- The state in which an action ends, however it ends. -/
def endState (action : EStateM ε S α) (s : S) : S :=
  match action s with
  | .ok _ t => t
  | .error _ t => t

/-- What an action lets out, if anything. -/
def letsOut (action : EStateM ε S α) (s : S) : Option ε :=
  match action s with
  | .ok _ _ => none
  | .error e _ => some e

/-- What an action gives or lets out. -/
def answerOf (action : EStateM ε S α) (s : S) : Except ε α :=
  match action s with
  | .ok a _ => .ok a
  | .error e _ => .error e

/-- The action, started here, is related to its start by what it lets out and
where it ends. -/
def Leads (R : S → Option ε → S → Prop) (action : EStateM ε S α) (s : S) : Prop :=
  R s (letsOut action s) (endState action s)

variable {R : S → Option ε → S → Prop} {action : EStateM ε S α} {s t : S}

theorem leads_of_ok {a : α} (hRun : action s = .ok a t) (h : R s none t) : Leads R action s := by
  simpa only [Leads, letsOut, endState, hRun] using h

theorem leads_of_error {e : ε} (hRun : action s = .error e t) (h : R s (some e) t) :
    Leads R action s := by
  simpa only [Leads, letsOut, endState, hRun] using h

theorem Leads.of_ok {a : α} (h : Leads R action s) (hRun : action s = .ok a t) : R s none t := by
  simpa only [Leads, letsOut, endState, hRun] using h

theorem Leads.of_error {e : ε} (h : Leads R action s) (hRun : action s = .error e t) :
    R s (some e) t := by
  simpa only [Leads, letsOut, endState, hRun] using h

/-- Only what the action does here matters. -/
theorem Leads.congr {action' : EStateM ε S α} (h : Leads R action s)
    (hSame : action' s = action s) : Leads R action' s := by
  simpa only [Leads, letsOut, endState, hSame] using h

theorem bind_of_ok {a : α} {next : α → EStateM ε S β} (hRun : action s = .ok a t) :
    (action >>= next) s = next a t := by
  show EStateM.bind action next s = _
  rw [EStateM.bind, hRun]

theorem bind_of_error {e : ε} {next : α → EStateM ε S β} (hRun : action s = .error e t) :
    (action >>= next) s = .error e t := by
  show EStateM.bind action next s = _
  rw [EStateM.bind, hRun]

/-- The first part is known by what it does here, the rest by what it does after that. -/
theorem bind_congr_of_ok {action' : EStateM ε S α} {next next' : α → EStateM ε S β}
    (hFirst : action s = action' s)
    (hNext : ∀ a t, action' s = .ok a t → next a t = next' a t) :
    (action >>= next) s = (action' >>= next') s := by
  cases hRun : action' s with
  | ok a t => rw [bind_of_ok (hFirst.trans hRun), bind_of_ok hRun, hNext a t hRun]
  | error e t => rw [bind_of_error (hFirst.trans hRun), bind_of_error hRun]

/-- A sequence that ends well is a first part that ends well and a rest that does. -/
theorem exists_of_bind_eq_ok {next : α → EStateM ε S β} {b : β}
    (h : (action >>= next) s = .ok b t) :
    ∃ a s₁, action s = .ok a s₁ ∧ next a s₁ = .ok b t := by
  cases hRun : action s with
  | ok a s₁ => exact ⟨a, s₁, rfl, (bind_of_ok hRun).symm.trans h⟩
  | error e s₁ =>
      rw [bind_of_error hRun] at h
      cases h

/-- After a first part that is known, the rest counts. -/
theorem leads_bind_of_ok {a : α} {next : α → EStateM ε S β} (hRun : action s = .ok a t)
    (h : Leads (fun _ => R s) (next a) t) : Leads R (action >>= next) s := by
  simpa only [Leads, letsOut, endState, bind_of_ok hRun] using h

theorem leads_bind_of_error {e : ε} {next : α → EStateM ε S β} (hRun : action s = .error e t)
    (h : R s (some e) t) : Leads R (action >>= next) s :=
  leads_of_error (bind_of_error hRun) h

theorem letsOut_bind_of_ok {a : α} {next : α → EStateM ε S β} (hRun : action s = .ok a t) :
    letsOut (action >>= next) s = letsOut (next a) t := by
  simp only [letsOut, bind_of_ok hRun]

theorem letsOut_bind_of_letsOut {e : ε} {next : α → EStateM ε S β}
    (h : letsOut action s = some e) : letsOut (action >>= next) s = some e := by
  cases hRun : action s with
  | ok a t => simp [letsOut, hRun] at h
  | error e' t =>
      obtain rfl : e' = e := by simpa [letsOut, hRun] using h
      simp only [letsOut, bind_of_error hRun]

/-- A relation that holds along a sequence if it holds of each part: every part but
the last lets nothing out. -/
structure Composes (R : S → Option ε → S → Prop) : Prop where
  refl : ∀ s, R s none s
  trans : ∀ {s s₁ t : S} {e : Option ε}, R s none s₁ → R s₁ e t → R s e t

theorem Composes.leads_bind (hR : Composes R) {next : α → EStateM ε S β}
    (hFirst : Leads R action s)
    (hNext : ∀ a s₁, action s = .ok a s₁ → Leads R (next a) s₁) :
    Leads R (action >>= next) s := by
  cases hRun : action s with
  | ok a s₁ => exact leads_bind_of_ok hRun (hR.trans (hFirst.of_ok hRun) (hNext a s₁ hRun))
  | error e t => exact leads_bind_of_error hRun (hFirst.of_error hRun)

/-- After a first part that is known, the rest counts, wherever it starts. -/
theorem Composes.leads_bind_of_ok (hR : Composes R) {a : α} {next : α → EStateM ε S β}
    (hRun : action s = .ok a t) (hFirst : R s none t) (hNext : Leads R (next a) t) :
    Leads R (action >>= next) s :=
  MemShell.leads_bind_of_ok hRun (hR.trans hFirst hNext)

end Endings

/-! ## Events that were added -/

/-- Whether an event says nothing of trees and commands that start, end or are held
back. -/
def Event.isQuiet : Event → Bool
  | .started _ | .dispatched _ _ _ | .ended _ _ _ | .interrupted => false
  | _ => true

/-- Whether an event can come from a tree that is run with this view. A command sees
the view of the tree, its input apart. -/
def Event.OfTree (view : View) : Event → Prop
  | .dispatched _ _ seen => seen = { view with stdin := seen.stdin }
  | .inputRead _ _ | .ended _ _ _ | .redirected _ _ _ | .stageEnded _ _ _ _ | .interrupted
  | .noted _ => True
  | _ => False

section Events

variable {ε σ α : Type}

/-- The events of the second machine that the first has not seen. -/
def newEvents (m m' : Machine σ) : List Event :=
  m'.trace.toList.drop m.trace.size

/-- The second machine has seen what the first has seen, and then these events. -/
def Since (m m' : Machine σ) (es : List Event) : Prop :=
  m'.trace.toList = m.trace.toList ++ es

/-- Only such events lie between two machines. -/
def Adds (P : Event → Prop) (m m' : Machine σ) : Prop :=
  ∃ es, Since m m' es ∧ ∀ e ∈ es, P e

/-- Quiet events at most lie between two machines. -/
def Quietly (m m' : Machine σ) : Prop :=
  Adds (·.isQuiet = true) m m'

/-- The machine after an action on its host, however the action ended. -/
def Machine.after (m : Machine σ) (action : HostM ε σ α) : Machine σ :=
  m.absorb (endState action m.host)

namespace Since

variable {m m₁ m₂ : Machine σ} {es fs : List Event}

theorem refl (m : Machine σ) : Since m m [] :=
  (List.append_nil _).symm

theorem trans (h : Since m m₁ es) (h' : Since m₁ m₂ fs) : Since m m₂ (es ++ fs) := by
  unfold Since at *
  rw [h', h, List.append_assoc]

theorem log (m : Machine σ) (e : Event) : Since m (m.log e) [e] := by
  simp [Since, Machine.log]

theorem after (m : Machine σ) (action : HostM ε σ α) :
    Since m (m.after action) ((endState action m.host).notes.toList.map Event.noted) := by
  simp [Since, Machine.after, Machine.absorb]

theorem newEvents_eq (h : Since m m₁ es) : newEvents m m₁ = es := by
  unfold Since at h
  unfold newEvents
  rw [h, ← Array.length_toList, List.drop_left]

end Since

namespace Adds

variable {P : Event → Prop} {m m₁ m₂ : Machine σ}

theorem refl (m : Machine σ) : Adds P m m :=
  ⟨[], Since.refl m, by simp⟩

theorem trans (h : Adds P m m₁) (h' : Adds P m₁ m₂) : Adds P m m₂ := by
  obtain ⟨es, hSince, hAll⟩ := h
  obtain ⟨fs, hSince', hAll'⟩ := h'
  refine ⟨es ++ fs, hSince.trans hSince', fun e he => ?_⟩
  rcases List.mem_append.mp he with hMem | hMem
  · exact hAll e hMem
  · exact hAll' e hMem

theorem log (m : Machine σ) {e : Event} (h : P e) : Adds P m (m.log e) :=
  ⟨[e], Since.log m e, by simpa using h⟩

theorem after (hNoted : ∀ note, P (.noted note)) (m : Machine σ) (action : HostM ε σ α) :
    Adds P m (m.after action) := by
  refine ⟨_, Since.after m action, fun e he => ?_⟩
  obtain ⟨note, -, rfl⟩ := List.mem_map.mp he
  exact hNoted note

end Adds

theorem Quietly.after (m : Machine σ) (action : HostM ε σ α) : Quietly m (m.after action) :=
  Adds.after (fun _ => rfl) m action

end Events

namespace Execute

variable {ε ε' σ α : Type}

/-! ## One command -/

/-- An action on the host that is run to a value. -/
theorem attempt_onHost (action : HostM ε' σ α) (m : Machine σ) :
    (attempt (onHost action) : MachineM ε σ _) m =
      .ok (answerOf action m.host) (m.after action) := by
  unfold attempt onHost answerOf Machine.after endState
  cases action m.host <;> rfl

/-- One thing done while the inputs of a command are read. -/
inductive ReadStep (ctx : Context σ) : Machine σ → Machine σ → Prop
  | read {storage : Storage σ} (hStorage : ctx.storage = some storage) (path : String)
      (m : Machine σ) : ReadStep ctx m (m.after (storage.read path))
  | said (command file : String) (m : Machine σ) :
      ReadStep ctx m (m.log (.inputRead command file))

/-- One thing done while the outputs of a command are written. -/
inductive WriteStep (ctx : Context σ) (outputs : List Redirect) : Machine σ → Machine σ → Prop
  | write {storage : Storage σ} (hStorage : ctx.storage = some storage) {r : Redirect}
      (hMem : r ∈ outputs) (text : String) (m : Machine σ) :
      WriteStep ctx outputs m (m.after (storage.write (ctx.resolve r.file) text))
  | append {storage : Storage σ} (hStorage : ctx.storage = some storage) {r : Redirect}
      (hMem : r ∈ outputs) (text : String) (m : Machine σ) :
      WriteStep ctx outputs m (m.after (storage.append (ctx.resolve r.file) text))
  | said (kind : RedirectKind) (command path : String) (m : Machine σ) :
      WriteStep ctx outputs m (m.log (.redirected kind command path))

/-- What a command does when it is called. -/
def call (registry : Registry (Command σ)) (ctx : Context σ) (c : Simple) (command : Command σ) :
    HostM Raised σ (Option Outcome) :=
  command ⟨c.args, ctx, registry.names⟩

/-- The machine after a command was called. -/
def called (registry : Registry (Command σ)) (ctx : Context σ) (c : Simple)
    (command : Command σ) (m : Machine σ) : Machine σ :=
  let ended := (m.log (.dispatched c.command c.args ctx.toView)).after (call registry ctx c command)
  ended.log (.ended c.command (.ofAnswer (answerOf (call registry ctx c command) m.host))
    ended.isStopped)

/-- What running one command can do. -/
inductive SimpleRun (registry : Registry (Command σ)) (ctx : Context σ) (c : Simple) :
    Machine σ → Option Raised → Machine σ → Prop
  /-- An input cannot be read, or the name stands for nothing. -/
  | unstarted {m m' : Machine σ} (hReads : ReflTransGen (ReadStep ctx) m m') :
      SimpleRun registry ctx c m none m'
  /-- The command is called and does not end by an interrupt or a cancellation. -/
  | met {m m₁ m' : Machine σ} {command : Command σ} (stdin : String)
      (hReads : ReflTransGen (ReadStep ctx) m m₁)
      (hResolve : registry.resolve ctx.env c.command = some command)
      (hMet : ∀ e, answerOf (call registry { ctx with stdin } c command) m₁.host = .error e →
        ∃ f, e = .fault f)
      (hWrites :
        ReflTransGen (WriteStep ctx c.outputs) (called registry { ctx with stdin } c command m₁)
          m') :
      SimpleRun registry ctx c m none m'
  /-- The command is called and ends by an interrupt or a cancellation. -/
  | letOut {m m₁ : Machine σ} {command : Command σ} {e : Raised} (stdin : String)
      (hReads : ReflTransGen (ReadStep ctx) m m₁)
      (hResolve : registry.resolve ctx.env c.command = some command)
      (hOut : answerOf (call registry { ctx with stdin } c command) m₁.host = .error e)
      (hUnmet : e = .interrupt ∨ e = .cancelled) :
      SimpleRun registry ctx c m (some e) (called registry { ctx with stdin } c command m₁)

theorem since_called (registry : Registry (Command σ)) (ctx : Context σ) (c : Simple)
    (command : Command σ) (m : Machine σ) :
    ∃ notes : List Note, Since m (called registry ctx c command m)
      (.dispatched c.command c.args ctx.toView :: notes.map .noted ++
        [.ended c.command (.ofAnswer (answerOf (call registry ctx c command) m.host))
          (called registry ctx c command m).isStopped]) :=
  ⟨_, ((Since.log m _).trans (Since.after _ _)).trans (Since.log _ _)⟩

section Filing

variable {P : Event → Prop} {ctx : Context σ} {m m' : Machine σ}

theorem adds_of_reads (hNoted : ∀ note, P (.noted note))
    (hRead : ∀ command file, P (.inputRead command file))
    (h : ReflTransGen (ReadStep ctx) m m') : Adds P m m' := by
  induction h with
  | refl => exact .refl m
  | tail _ hStep ih =>
      cases hStep with
      | read => exact ih.trans (.after hNoted _ _)
      | said => exact ih.trans (.log _ (hRead _ _))

theorem adds_of_writes {outputs : List Redirect} (hNoted : ∀ note, P (.noted note))
    (hWritten : ∀ kind command path, P (.redirected kind command path))
    (h : ReflTransGen (WriteStep ctx outputs) m m') : Adds P m m' := by
  induction h with
  | refl => exact .refl m
  | tail _ hStep ih =>
      cases hStep with
      | write => exact ih.trans (.after hNoted _ _)
      | append => exact ih.trans (.after hNoted _ _)
      | said => exact ih.trans (.log _ (hWritten _ _ _))

theorem quietly_of_reads (h : ReflTransGen (ReadStep ctx) m m') : Quietly m m' :=
  adds_of_reads (fun _ => rfl) (fun _ _ => rfl) h

theorem quietly_of_writes {outputs : List Redirect}
    (h : ReflTransGen (WriteStep ctx outputs) m m') : Quietly m m' :=
  adds_of_writes (fun _ => rfl) (fun _ _ _ => rfl) h

end Filing

/-- Nothing is let out, and only such steps are taken. -/
def Only {S : Type} (step : S → S → Prop) (s : S) (e : Option ε) (t : S) : Prop :=
  e = none ∧ ReflTransGen step s t

theorem composes_only {S : Type} (step : S → S → Prop) : Composes (Only (ε := ε) step) where
  refl := fun _ => ⟨rfl, .refl⟩
  trans := fun h h' => ⟨h'.1, h.2.trans h'.2⟩

section Only

variable {step : Machine σ → Machine σ → Prop} {m : Machine σ}

theorem leads_attempt {action : HostM ε' σ α} (h : step m (m.after action)) :
    Leads (Only step) (attempt (onHost action) : MachineM ε σ _) m :=
  leads_of_ok (attempt_onHost action m) ⟨rfl, .single h⟩

theorem leads_emit {e : Event} (h : step m (m.log e)) :
    Leads (Only step) (emit e : MachineM ε σ Unit) m :=
  leads_of_ok rfl ⟨rfl, .single h⟩

theorem leads_pure (a : α) : Leads (Only step) (pure a : MachineM ε σ α) m :=
  leads_of_ok rfl ⟨rfl, .refl⟩

theorem Only.exists_ok {action : MachineM ε σ α} (h : Leads (Only step) action m) :
    ∃ a m', action m = .ok a m' ∧ ReflTransGen step m m' := by
  cases hRun : action m with
  | ok a m' => exact ⟨a, m', rfl, (h.of_ok hRun).2⟩
  | error e m' => exact absurd (h.of_error hRun).1 (by simp)

end Only

theorem leads_readInputs (ctx : Context σ) (command : String) (rs : List Redirect) :
    ∀ (stdin : String) (m : Machine σ),
      Leads (Only (ReadStep ctx)) (readInputs ctx command rs stdin : MachineM ε σ _) m := by
  induction rs with
  | nil => exact fun stdin m => leads_pure _
  | cons r rs ih =>
      intro stdin m
      unfold readInputs
      cases hStorage : ctx.storage with
      | none => exact leads_pure _
      | some storage =>
          refine (composes_only _).leads_bind (leads_attempt (.read hStorage _ m)) ?_
          intro answer m₁ _
          cases answer with
          | error fault => exact leads_pure _
          | ok content =>
              exact (composes_only _).leads_bind (leads_emit (.said _ _ m₁)) fun _ m₂ _ => ih _ m₂

theorem leads_sendOutput (ctx : Context σ) {storage : Storage σ}
    (hStorage : ctx.storage = some storage) (command text : String) {outputs : List Redirect}
    (rs : List Redirect) :
    rs ⊆ outputs → ∀ m : Machine σ, Leads (Only (WriteStep ctx outputs))
      (sendOutput ctx storage command text rs : MachineM ε σ _) m := by
  induction rs with
  | nil => exact fun _ m => leads_pure _
  | cons r rs ih =>
      intro hAll m
      obtain ⟨hMem, hRest⟩ := List.cons_subset.mp hAll
      unfold sendOutput
      refine (composes_only _).leads_bind (leads_attempt ?_) ?_
      · cases r.kind with
        | write => exact .write hStorage hMem _ m
        | append => exact .append hStorage hMem _ m
      · intro answer m₁ _
        cases answer with
        | error fault => exact leads_pure _
        | ok _ =>
            refine (composes_only _).leads_bind (leads_emit (.said _ _ _ m₁)) ?_
            exact fun _ m₂ _ => ih hRest m₂

theorem leads_deliver (ctx : Context σ) (command : String) (outputs : List Redirect)
    (result : Outcome) (m : Machine σ) :
    Leads (Only (WriteStep ctx outputs)) (deliver ctx command outputs result : MachineM ε σ _)
      m := by
  unfold deliver
  match outputs, hStorage : ctx.storage with
  | [], _ => exact leads_pure _
  | _ :: _, none => exact leads_pure _
  | r :: rs, some storage =>
      refine (composes_only _).leads_bind
        (leads_sendOutput ctx hStorage _ _ _ (List.Subset.refl _) m) ?_
      intro answer m₁ _
      cases answer with
      | error message => exact leads_pure _
      | ok _ => exact leads_pure _

theorem dispatch_eq (registry : Registry (Command σ)) (ctx : Context σ) (c : Simple)
    (command : Command σ) (m : Machine σ) :
    (dispatch registry ctx c command : MachineM ε σ _) m =
      .ok (answerOf (call registry ctx c command) m.host) (called registry ctx c command m) := by
  have hEmit : (emit (.dispatched c.command c.args ctx.toView) : MachineM ε σ Unit) m =
      .ok () (m.log (.dispatched c.command c.args ctx.toView)) := rfl
  have hCall := attempt_onHost (ε := ε) (call registry ctx c command)
    (m.log (.dispatched c.command c.args ctx.toView))
  unfold dispatch
  exact (bind_of_ok hEmit).trans (bind_of_ok hCall)

/-- Running one command does what `SimpleRun` says. -/
theorem simpleRun_runSimple (registry : Registry (Command σ)) (ctx : Context σ) (c : Simple)
    (m : Machine σ) : Leads (SimpleRun registry ctx c) (runSimple registry ctx c) m := by
  obtain ⟨input, m₁, hInput, hReads⟩ :=
    Only.exists_ok (leads_readInputs (ε := Raised) ctx c.command c.inputs ctx.stdin m)
  unfold runSimple
  refine leads_bind_of_ok hInput ?_
  cases input with
  | error message => exact leads_of_ok rfl (.unstarted hReads)
  | ok stdin =>
      cases hResolve : registry.resolve ctx.env c.command with
      | none => exact leads_of_ok rfl (.unstarted hReads)
      | some command =>
          refine leads_bind_of_ok (dispatch_eq registry { ctx with stdin } c command m₁) ?_
          match hAnswer : answerOf (call registry { ctx with stdin } c command) m₁.host with
          | .ok (some result) =>
              obtain ⟨o, m', hDeliver, hWrites⟩ :=
                Only.exists_ok (leads_deliver (ε := Raised) ctx c.command c.outputs result _)
              exact leads_of_ok hDeliver (.met stdin hReads hResolve (by simp [hAnswer]) hWrites)
          | .ok none => exact leads_of_ok rfl (.met stdin hReads hResolve (by simp [hAnswer]) .refl)
          | .error (.fault f) =>
              exact leads_of_ok rfl (.met stdin hReads hResolve (by simp [hAnswer]) .refl)
          | .error .interrupt =>
              exact leads_of_error rfl (.letOut stdin hReads hResolve hAnswer (.inl rfl))
          | .error .cancelled =>
              exact leads_of_error rfl (.letOut stdin hReads hResolve hAnswer (.inr rfl))

theorem simpleRun_of_letsOut {registry : Registry (Command σ)} {ctx : Context σ} {c : Simple}
    {m : Machine σ} {e : Option Raised} (h : letsOut (runSimple registry ctx c) m = e) :
    SimpleRun registry ctx c m e (endState (runSimple registry ctx c) m) := by
  rw [← h]
  exact simpleRun_runSimple registry ctx c m

/-! ## Trees -/

/-- What running a tree with these commands can do. -/
inductive TreeRun (registry : Registry (Command σ)) (ctx : Context σ) :
    List Simple → Machine σ → Option Raised → Machine σ → Prop
  | done (m : Machine σ) : TreeRun registry ctx [] m none m
  /-- A command is not run. -/
  | passed (c : Simple) {cs : List Simple} {m m' : Machine σ} {e : Option Raised}
      (hRest : TreeRun registry ctx cs m e m') : TreeRun registry ctx (c :: cs) m e m'
  | ran {c : Simple} {cs : List Simple} {m m' : Machine σ} {e : Option Raised} (stdin : String)
      (hDown : m.isStopped = false)
      (hMet : letsOut (runSimple registry { ctx with stdin } c) m = none)
      (hRest :
        TreeRun registry ctx cs (endState (runSimple registry { ctx with stdin } c) m) e m') :
      TreeRun registry ctx (c :: cs) m e m'
  | letOut {c : Simple} {cs : List Simple} {m : Machine σ} {e : Raised} (stdin : String)
      (hDown : m.isStopped = false)
      (hOut : letsOut (runSimple registry { ctx with stdin } c) m = some e) :
      TreeRun registry ctx (c :: cs) m (some e)
        (endState (runSimple registry { ctx with stdin } c) m)
  | interrupted {cs : List Simple} {m m' : Machine σ} {e : Option Raised}
      (hUp : m.isStopped = true) (hRest : TreeRun registry ctx cs (m.log .interrupted) e m') :
      TreeRun registry ctx cs m e m'
  | stageEnded {cs : List Simple} {m m' : Machine σ} {e : Option Raised} (index total : Nat)
      (command : String) (status : Int)
      (hRest : TreeRun registry ctx cs (m.log (.stageEnded index total command status)) e m') :
      TreeRun registry ctx cs m e m'

namespace TreeRun

variable {registry : Registry (Command σ)} {ctx : Context σ} {cs ds : List Simple}
  {m m₁ m' : Machine σ} {e : Option Raised}

theorem idle (cs : List Simple) (m : Machine σ) : TreeRun registry ctx cs m none m := by
  induction cs with
  | nil => exact .done m
  | cons c cs ih => exact .passed c ih

theorem append (h : TreeRun registry ctx cs m none m₁) (h' : TreeRun registry ctx ds m₁ e m') :
    TreeRun registry ctx (cs ++ ds) m e m' := by
  generalize hNone : (none : Option Raised) = none' at h
  induction h with
  | done m => exact h'
  | passed c _ ih => exact .passed c (ih h' hNone)
  | ran stdin hDown hMet _ ih => exact .ran stdin hDown hMet (ih h' hNone)
  | letOut => cases hNone
  | interrupted hUp _ ih => exact .interrupted hUp (ih h' hNone)
  | stageEnded index total command status _ ih =>
      exact .stageEnded index total command status (ih h' hNone)

/-- More commands, none of which is run. -/
theorem weaken (h : TreeRun registry ctx cs m e m') (ds : List Simple) :
    TreeRun registry ctx (cs ++ ds) m e m' := by
  induction h with
  | done m => exact idle ds m
  | passed c _ ih => exact .passed c ih
  | ran stdin hDown hMet _ ih => exact .ran stdin hDown hMet ih
  | letOut stdin hDown hOut => exact .letOut stdin hDown hOut
  | interrupted hUp _ ih => exact .interrupted hUp ih
  | stageEnded index total command status _ ih => exact .stageEnded index total command status ih

theorem leads_bind {α β : Type} {action : MachineM Raised σ α} {next : α → MachineM Raised σ β}
    (hFirst : Leads (TreeRun registry ctx cs) action m)
    (hNext : ∀ a m₁, action m = .ok a m₁ → Leads (TreeRun registry ctx ds) (next a) m₁) :
    Leads (TreeRun registry ctx (cs ++ ds)) (action >>= next) m := by
  cases hRun : action m with
  | ok a m₁ =>
      exact leads_bind_of_ok hRun ((hFirst.of_ok hRun).append (hNext a m₁ hRun))
  | error e m' => exact leads_bind_of_error hRun ((hFirst.of_error hRun).weaken ds)

/-- Before anything is run the signal is looked at. -/
theorem leads_unlessStopped {changes : Changes} {action : MachineM Raised σ Outcome}
    (h : m.isStopped = false → Leads (TreeRun registry ctx cs) action m) :
    Leads (TreeRun registry ctx cs) (unlessStopped changes action) m := by
  cases hStopped : m.isStopped with
  | true =>
      refine leads_of_ok (a := .interrupted changes) ?_ (.interrupted hStopped (idle cs _))
      simp [unlessStopped, hStopped]
  | false =>
      exact (h hStopped).congr (unlessStopped_of_not_isStopped hStopped)

end TreeRun

theorem leads_runSimple {registry : Registry (Command σ)} {ctx : Context σ} {m : Machine σ}
    (hDown : m.isStopped = false) (stdin : String) (c : Simple) :
    Leads (TreeRun registry ctx [c]) (runSimple registry { ctx with stdin } c) m := by
  unfold Leads
  cases hOut : letsOut (runSimple registry { ctx with stdin } c) m with
  | none => exact .ran stdin hDown hOut (.done _)
  | some e => exact .letOut stdin hDown hOut

theorem leads_runStages (registry : Registry (Command σ)) (ctx : Context σ) (total : Nat)
    (stages : List Simple) :
    ∀ (index : Nat) (stdin : String) (last : Outcome) (m : Machine σ),
      Leads (TreeRun registry ctx stages)
        (runStages registry ctx total index stages stdin last) m := by
  induction stages with
  | nil => exact fun index stdin last m => leads_of_ok rfl (.done m)
  | cons stage rest ih =>
      intro index stdin last m
      unfold runStages
      refine TreeRun.leads_unlessStopped fun hDown => ?_
      show Leads (TreeRun registry ctx ([stage] ++ rest)) _ m
      refine TreeRun.leads_bind (leads_runSimple hDown stdin stage) ?_
      intro result m₁ _
      cases rest.isEmpty with
      | true => exact ih _ _ _ m₁
      | false =>
          refine leads_bind_of_ok (a := ()) rfl ?_
          exact .stageEnded _ _ _ _ (ih _ _ _ _)

/-- **Running a tree** does what `TreeRun` says. -/
theorem treeRun_run (registry : Registry (Command σ)) (ctx : Context σ) (tree : Tree) :
    ∀ m : Machine σ, Leads (TreeRun registry ctx tree.simples) (run registry ctx tree) m := by
  induction tree with
  | simple c =>
      intro m
      unfold run
      exact TreeRun.leads_unlessStopped fun hDown => leads_runSimple hDown ctx.stdin c
  | pipeline stages =>
      intro m
      unfold run
      exact TreeRun.leads_unlessStopped fun _ => leads_runStages registry ctx _ stages _ _ _ m
  | logical left connective right ihLeft ihRight =>
      intro m
      unfold run
      refine TreeRun.leads_unlessStopped fun _ => TreeRun.leads_bind (ihLeft m) ?_
      intro first m₁ _
      cases stopsAfter connective first with
      | true => exact leads_of_ok rfl (.idle _ m₁)
      | false =>
          refine TreeRun.leads_unlessStopped fun _ => ?_
          rw [← List.append_nil right.simples]
          exact TreeRun.leads_bind (ihRight m₁) fun _ m₂ _ => leads_of_ok rfl (.done m₂)

/-- With the signal up, a tree is held back as a whole. -/
theorem run_of_isStopped (registry : Registry (Command σ)) (ctx : Context σ) (tree : Tree)
    {m : Machine σ} (hUp : m.isStopped = true) :
    run registry ctx tree m = .ok (.interrupted {}) (m.log .interrupted) := by
  cases tree <;> simp [run, unlessStopped, hUp]

/-- **A law of every run** follows from the law of its steps. -/
theorem TreeRun.lift {registry : Registry (Command σ)} {ctx : Context σ}
    {R : Machine σ → Option Raised → Machine σ → Prop} (hR : Composes R)
    (hInterrupted : ∀ m : Machine σ, m.isStopped = true → R m none (m.log .interrupted))
    (hStage : ∀ (m : Machine σ) (index total : Nat) (command : String) (status : Int),
      R m none (m.log (.stageEnded index total command status)))
    {cs : List Simple} {m m' : Machine σ} {e : Option Raised}
    (h : TreeRun registry ctx cs m e m')
    (hSimple : ∀ {stdin : String} {c : Simple} {m m' : Machine σ} {e : Option Raised}, c ∈ cs →
      m.isStopped = false → SimpleRun registry { ctx with stdin } c m e m' → R m e m') :
    R m e m' := by
  induction h with
  | done m => exact hR.refl m
  | passed c _ ih => exact ih fun hMem => hSimple (List.mem_cons_of_mem c hMem)
  | @ran c _ _ _ _ stdin hDown hMet _ ih =>
      have hFirst := hSimple List.mem_cons_self hDown (simpleRun_of_letsOut hMet)
      exact hR.trans hFirst (ih fun hMem => hSimple (List.mem_cons_of_mem c hMem))
  | letOut stdin hDown hOut =>
      exact hSimple List.mem_cons_self hDown (simpleRun_of_letsOut hOut)
  | interrupted hUp _ ih => exact hR.trans (hInterrupted _ hUp) (ih hSimple)
  | stageEnded index total command status _ ih =>
      exact hR.trans (hStage _ index total command status) (ih hSimple)

/-! ## The events of a tree -/

theorem ofTree_called (registry : Registry (Command σ)) {ctx : Context σ} {view : View}
    (hView : ctx.toView = { view with stdin := ctx.stdin }) (c : Simple) (command : Command σ)
    (m : Machine σ) : Adds (Event.OfTree view) m (called registry ctx c command m) :=
  have hShown : Event.OfTree view (.dispatched c.command c.args ctx.toView) := hView
  ((Adds.log m hShown).trans (.after (fun _ => trivial) _ _)).trans (.log _ trivial)

/-- **The events of a tree.** No tree or file is entered and nothing of the session is
changed while a tree is run, and every command sees what the tree sees. -/
theorem TreeRun.ofTree {registry : Registry (Command σ)} {ctx : Context σ} {cs : List Simple}
    {m m' : Machine σ} {e : Option Raised} (h : TreeRun registry ctx cs m e m') :
    Adds (Event.OfTree ctx.toView) m m' := by
  have hC : Composes fun (m : Machine σ) (_ : Option Raised) m' =>
      Adds (Event.OfTree ctx.toView) m m' := ⟨.refl, .trans⟩
  refine h.lift hC (fun m _ => .log m trivial) (fun m _ _ _ _ => .log m trivial) ?_
  intro stdin c m m' e _ _ hRun
  have hReading : ∀ {m m' : Machine σ}, ReflTransGen (ReadStep { ctx with stdin }) m m' →
      Adds (Event.OfTree ctx.toView) m m' :=
    adds_of_reads (fun _ => trivial) fun _ _ => trivial
  cases hRun with
  | unstarted hReads => exact hReading hReads
  | met stdin' hReads _ _ hWrites =>
      have hWriting := adds_of_writes (P := Event.OfTree ctx.toView) (fun _ => trivial)
        (fun _ _ _ => trivial) hWrites
      refine (hReading hReads).trans (Adds.trans ?_ hWriting)
      exact ofTree_called registry rfl c _ _
  | letOut stdin' hReads => exact (hReading hReads).trans (ofTree_called registry rfl c _ _)

end Execute

end MemShell
