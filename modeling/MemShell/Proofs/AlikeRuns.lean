import MemShell.Proofs.TreeRuns

/-!
# Runs that nobody can tell apart

Two ways of running the same commands seldom leave the same trace. One of them counts the
stages of a pipeline to five where the other counts to two and then to three, or says twice
that something was held back where the other says it once. Nothing else shows the
difference: a command and a store act on the host, and the trace is no part of that.

So machines are compared by their store, their signal and their *deeds*, which are the
events of the trace without the shell's own book-keeping (`Machine.Alike`). What was
read, called, ended and written is a deed. Two runs *end alike* if both return, with
values that fit, or both let the same thing out, and the machines are alike in the end
(`EndAlike`). This is proved of two runs part by part (`EndAlike.bind`), so it can be
shown of runs of different form. That a command does the same on machines that are alike
is shown once (`steady_runSimple`).

## Main results

* `EndAlike.bind` — parts that end alike, one after the other.
* `steady_runSimple` — one command, run on machines that are alike.
-/

namespace MemShell

variable {ε ε' σ α β α' β' : Type}

/-! ## Machines that are alike -/

/-- Whether an event says what was done, to a command or to a file. The stages of a
pipeline are numbered, and what is held back is noted, for the reader of the log only. -/
def Event.isDeed : Event → Bool
  | .stageEnded _ _ _ _ | .interrupted => false
  | _ => true

namespace Machine

/-- What was done so far, in order. -/
def deeds (m : Machine σ) : List Event :=
  m.trace.toList.filter Event.isDeed

/-- Machines in the same state, on which the same was done. -/
structure Alike (m n : Machine σ) : Prop where
  store : m.store = n.store
  signal : m.signal = n.signal
  deeds : m.deeds = n.deeds

theorem deeds_log (m : Machine σ) (e : Event) :
    (m.log e).deeds = m.deeds ++ [e].filter Event.isDeed := by
  simp [deeds, log]

theorem deeds_after (m : Machine σ) (action : HostM ε σ α) :
    (m.after action).deeds =
      m.deeds ++ (endState action m.host).notes.toList.map Event.noted := by
  have hNoted : ((endState action m.host).notes.toList.map Event.noted).filter Event.isDeed =
      (endState action m.host).notes.toList.map Event.noted :=
    List.filter_eq_self.mpr fun e he => by
      obtain ⟨note, -, rfl⟩ := List.mem_map.mp he
      rfl
  simp only [deeds, after, absorb, Array.toList_append, Array.toList_map, List.filter_append,
    hNoted]

namespace Alike

variable {m n : Machine σ}

theorem refl (m : Machine σ) : m.Alike m :=
  ⟨rfl, rfl, rfl⟩

theorem trans {k : Machine σ} (h : m.Alike n) (h' : n.Alike k) : m.Alike k :=
  ⟨h.store.trans h'.store, h.signal.trans h'.signal, h.deeds.trans h'.deeds⟩

/-- Whoever acts on the host cannot tell the machines apart. -/
theorem host (h : m.Alike n) : m.host = n.host := by
  rw [Machine.host, Machine.host, h.store, h.signal]

theorem isStopped (h : m.Alike n) : m.isStopped = n.isStopped := by
  rw [Machine.isStopped, Machine.isStopped, h.signal]

theorem log (h : m.Alike n) (e : Event) : (m.log e).Alike (n.log e) :=
  ⟨h.store, h.signal, by rw [deeds_log, deeds_log, h.deeds]⟩

/-- Book-keeping of the one machine only. -/
theorem log_left (h : m.Alike n) {e : Event} (he : e.isDeed = false) : (m.log e).Alike n :=
  ⟨h.store, h.signal, by simp [deeds_log, he, h.deeds]⟩

theorem log_right (h : m.Alike n) {e : Event} (he : e.isDeed = false) : m.Alike (n.log e) :=
  ⟨h.store, h.signal, by simp [deeds_log, he, h.deeds]⟩

theorem after (h : m.Alike n) (action : HostM ε σ α) :
    (m.after action).Alike (n.after action) := by
  refine ⟨?_, ?_, ?_⟩
  · show (endState action m.host).store = (endState action n.host).store
    rw [h.host]
  · show (endState action m.host).signal = (endState action n.host).signal
    rw [h.host]
  · rw [deeds_after, deeds_after, h.deeds, h.host]

end Alike

end Machine

/-! ## Runs that end alike -/

/-- Both runs return, with values that fit, or both let the same thing out; and the machines
are alike in the end. -/
inductive EndAlike (R : α → β → Prop) :
    EStateM.Result ε (Machine σ) α → EStateM.Result ε (Machine σ) β → Prop
  | returned {a : α} {b : β} {m n : Machine σ} (hFit : R a b) (hAlike : m.Alike n) :
      EndAlike R (.ok a m) (.ok b n)
  | raised (e : ε) {m n : Machine σ} (hAlike : m.Alike n) : EndAlike R (.error e m) (.error e n)

namespace EndAlike

variable {R : α → β → Prop}

theorem refl (result : EStateM.Result ε (Machine σ) α) : EndAlike Eq result result := by
  cases result with
  | ok a m => exact .returned rfl (.refl m)
  | error e m => exact .raised e (.refl m)

/-- **Parts that end alike**, one after the other. -/
theorem bind {R' : α' → β' → Prop} {first : MachineM ε σ α} {first' : MachineM ε σ β}
    {next : α → MachineM ε σ α'} {next' : β → MachineM ε σ β'} {m n : Machine σ}
    (hFirst : EndAlike R (first m) (first' n))
    (hNext : ∀ {a : α} {b : β} {m₁ n₁ : Machine σ}, R a b → m₁.Alike n₁ →
      EndAlike R' (next a m₁) (next' b n₁)) :
    EndAlike R' ((first >>= next) m) ((first' >>= next') n) := by
  generalize hRun : first m = result at hFirst
  generalize hRun' : first' n = result' at hFirst
  cases hFirst with
  | returned hFit hAlike =>
      rw [bind_of_ok hRun, bind_of_ok hRun']
      exact hNext hFit hAlike
  | raised e hAlike =>
      rw [bind_of_error hRun, bind_of_error hRun']
      exact .raised e hAlike

/-- The second run ends by putting its value into another form. -/
theorem bind_pure_right {R' : α → β' → Prop} {result : EStateM.Result ε (Machine σ) α}
    {action : MachineM ε σ β} {n : Machine σ} (h : EndAlike R result (action n)) (f : β → β')
    (hFit : ∀ {a : α} {b : β}, R a b → R' a (f b)) :
    EndAlike R' result ((action >>= fun b => pure (f b)) n) := by
  generalize hRun : action n = result' at h
  cases h with
  | returned hOld hAlike =>
      rw [bind_of_ok hRun]
      exact .returned (hFit hOld) hAlike
  | raised e hAlike =>
      rw [bind_of_error hRun]
      exact .raised e hAlike

end EndAlike

/-- The action does the same on machines that are alike. -/
def Steady (action : MachineM ε σ α) : Prop :=
  ∀ m n : Machine σ, m.Alike n → EndAlike Eq (action m) (action n)

namespace Steady

theorem pure (a : α) : Steady (Pure.pure a : MachineM ε σ α) :=
  fun _ _ hAlike => .returned rfl hAlike

theorem throw (e : ε) : Steady (MonadExcept.throw e : MachineM ε σ α) :=
  fun _ _ hAlike => .raised e hAlike

theorem bind {action : MachineM ε σ α} {next : α → MachineM ε σ β} (h : Steady action)
    (hNext : ∀ a, Steady (next a)) : Steady (action >>= next) := by
  intro m n hAlike
  refine (h m n hAlike).bind ?_
  rintro a _ m₁ n₁ rfl hAlike₁
  exact hNext a m₁ n₁ hAlike₁

theorem emit (e : Event) : Steady (Execute.emit e : MachineM ε σ Unit) :=
  fun _ _ hAlike => .returned rfl (hAlike.log e)

theorem attempt (action : HostM ε' σ α) :
    Steady (MemShell.attempt (Execute.onHost action) : MachineM ε σ _) := by
  intro m n hAlike
  rw [Execute.attempt_onHost, Execute.attempt_onHost, hAlike.host]
  exact .returned rfl (hAlike.after action)

end Steady

/-! ## One command -/

namespace Execute

theorem steady_readInputs (ctx : Context σ) (command : String) (rs : List Redirect) :
    ∀ stdin : String, Steady (readInputs ctx command rs stdin : MachineM ε σ _) := by
  induction rs with
  | nil => exact fun stdin => .pure _
  | cons r rs ih =>
      intro stdin
      unfold readInputs
      cases ctx.storage with
      | none => exact .pure _
      | some storage =>
          refine .bind (.attempt _) fun answer => ?_
          cases answer with
          | error fault => exact .pure _
          | ok content => exact .bind (.emit _) fun _ => ih content

theorem steady_sendOutput (ctx : Context σ) (storage : Storage σ) (command text : String)
    (rs : List Redirect) : Steady (sendOutput ctx storage command text rs : MachineM ε σ _) := by
  induction rs with
  | nil => exact .pure _
  | cons r rs ih =>
      unfold sendOutput
      refine .bind (.attempt _) fun answer => ?_
      cases answer with
      | error fault => exact .pure _
      | ok _ => exact .bind (.emit _) fun _ => ih

theorem steady_deliver (ctx : Context σ) (command : String) (outputs : List Redirect)
    (result : Outcome) : Steady (deliver ctx command outputs result : MachineM ε σ _) := by
  unfold deliver
  match outputs, ctx.storage with
  | [], _ => exact .pure _
  | _ :: _, none => exact .pure _
  | r :: rs, some storage =>
      refine .bind (steady_sendOutput ctx storage _ _ _) fun answer => ?_
      cases answer with
      | error message => exact .pure _
      | ok _ => exact .pure _

theorem steady_dispatch (registry : Registry (Command σ)) (ctx : Context σ) (c : Simple)
    (command : Command σ) : Steady (dispatch registry ctx c command : MachineM ε σ _) := by
  unfold dispatch
  refine .bind (.emit _) fun _ => .bind (.attempt _) fun answer => .bind ?_ fun _ => .pure _
  intro m n hAlike
  -- the entry says whether the signal is up, which it is on both machines or on none
  show EndAlike Eq (.ok () (m.log (.ended _ _ m.isStopped))) (.ok () (n.log (.ended _ _ n.isStopped)))
  rw [hAlike.isStopped]
  exact .returned rfl (hAlike.log _)

/-- **One command** does the same on machines that are alike. -/
theorem steady_runSimple (registry : Registry (Command σ)) (ctx : Context σ) (c : Simple) :
    Steady (runSimple registry ctx c) := by
  unfold runSimple
  refine .bind (steady_readInputs ctx _ _ _) fun input => ?_
  cases input with
  | error message => exact .pure _
  | ok stdin =>
      cases registry.resolve ctx.env c.command with
      | none => exact .pure _
      | some command =>
          refine .bind (steady_dispatch registry _ c command) fun answer => ?_
          match answer with
          | .ok (some result) => exact steady_deliver ctx _ _ result
          | .ok none => exact .pure _
          | .error (.fault fault) => exact .pure _
          | .error .interrupt => exact .throw _
          | .error .cancelled => exact .throw _

end Execute

end MemShell
