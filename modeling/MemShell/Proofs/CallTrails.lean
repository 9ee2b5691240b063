import MemShell.Proofs.SessionSteps

/-!
# What a call does on the machine

What a call does to its session, tick by tick, is told in `SessionSteps`. On the
machine, all of that is one sequence of steps: a tree is run, the session asks the
store whether a directory is there, or something is written down (`Session.Step`).
This module reads the sequence off the ticks. A law of the machine that holds of the
steps then holds of every call, at any depth of sourcing.

Every call gives the depth back that it was given, however it ends; so the lines of a
file are evaluated at a depth that is not zero, and the signal is renewed at one place
only: where a line that is not part of a file starts to run.

## Main results

* `Trail.lift` — a relation that composes holds of a sequence of steps if it holds
  of the steps.
* `leads_runLines`, `leads_apply`, `leads_evaluate`, `leads_runProfile` — the calls
  are such sequences.
-/

namespace MemShell

/-! ## Sequences of steps -/

/-- Steps one after the other. Only the last may let something out. -/
inductive Trail {ε S : Type} (step : S → Option ε → S → Prop) : S → Option ε → S → Prop
  | done (s : S) : Trail step s none s
  | next {s s₁ t : S} {e : Option ε} (hStep : step s none s₁) (hRest : Trail step s₁ e t) :
      Trail step s e t
  | last {s t : S} {e : ε} (hStep : step s (some e) t) : Trail step s (some e) t

section Trail

variable {ε S : Type} {step : S → Option ε → S → Prop}

theorem Trail.single {s t : S} {e : Option ε} (h : step s e t) : Trail step s e t := by
  cases e with
  | none => exact .next h (.done t)
  | some e => exact .last h

theorem composes_trail (step : S → Option ε → S → Prop) : Composes (Trail step) where
  refl := .done
  trans := by
    intro s s₁ t e h h'
    generalize hNone : (none : Option ε) = none' at h
    induction h with
    | done s => exact h'
    | next hStep _ ih => exact .next hStep (ih h' hNone)
    | last => cases hNone

/-- **A law of every sequence** follows from the law of its steps. -/
theorem Trail.lift {R : S → Option ε → S → Prop} (hR : Composes R)
    (hStep : ∀ {s t : S} {e : Option ε}, step s e t → R s e t) {s t : S} {e : Option ε}
    (h : Trail step s e t) : R s e t := by
  induction h with
  | done s => exact hR.refl s
  | next hFirst _ ih => exact hR.trans (hStep hFirst) ih
  | last hLast => exact hStep hLast

end Trail

namespace Session

variable {σ α : Type}

/-! ## Steps on the machine -/

/-- One thing that a call does on the machine. -/
inductive Step (shell : Shell σ) : Machine σ → Option Raised → Machine σ → Prop
  | tree {ctx : Context σ} (hStorage : ctx.storage = some shell.storage) (tree : Tree)
      (m : Machine σ) :
      Step shell m (letsOut (Execute.run shell.registry ctx tree) (m.log (.started tree)))
        (endState (Execute.run shell.registry ctx tree) (m.log (.started tree)))
  /-- The session asks whether a directory is there. -/
  | look {isDir : String → HostM Fault σ Bool} (hIsDir : shell.storage.isDir = some isDir)
      (path : String) (m : Machine σ) :
      Step shell m ((letsOut (isDir path) m.host).map .fault) (m.after (isDir path))
  | said {e : Event} (hQuiet : e.isQuiet = true) (m : Machine σ) : Step shell m none (m.log e)

theorem Step.of_run_ok {shell : Shell σ} {ctx : Context σ}
    (hStorage : ctx.storage = some shell.storage) {tree : Tree} {m m' : Machine σ} {o : Outcome}
    (hRun : Execute.run shell.registry ctx tree (m.log (.started tree)) = .ok o m') :
    Step shell m none m' := by
  simpa only [letsOut, endState, hRun] using Step.tree hStorage tree m

theorem Step.of_run_error {shell : Shell σ} {ctx : Context σ}
    (hStorage : ctx.storage = some shell.storage) {tree : Tree} {m m' : Machine σ} {e : Raised}
    (hRun : Execute.run shell.registry ctx tree (m.log (.started tree)) = .error e m') :
    Step shell m (some e) m' := by
  simpa only [letsOut, endState, hRun] using Step.tree hStorage tree m

/-- One thing that running the profile at this path does on the machine. -/
inductive ProfileStep (shell : Shell σ) (path : String) :
    Machine σ → Option Raised → Machine σ → Prop
  | call {m m' : Machine σ} {e : Option Raised} (hStep : Step shell m e m') :
      ProfileStep shell path m e m'
  /-- The session asks whether there is a profile. -/
  | ask (m : Machine σ) :
      ProfileStep shell path m ((letsOut (shell.storage.contains path) m.host).map .fault)
        (m.after (shell.storage.contains path))
  | read (m : Machine σ) : ProfileStep shell path m none (m.after (shell.storage.read path))

/-- The depth is given back, and the machine took such steps. -/
def Taking (step : Machine σ → Option Raised → Machine σ → Prop) (s : Session σ)
    (e : Option Raised) (t : Session σ) : Prop :=
  t.depth = s.depth ∧ Trail step s.machine e t.machine

theorem composes_taking (step : Machine σ → Option Raised → Machine σ → Prop) :
    Composes (Taking step) where
  refl := fun s => ⟨rfl, .done s.machine⟩
  trans := fun h h' => ⟨h'.1.trans h.1, (composes_trail step).trans h.2 h'.2⟩

section Taking

variable {step : Machine σ → Option Raised → Machine σ → Prop} {s : Session σ}

theorem leads_pure (a : α) : Leads (Taking step) (pure a : SessionM σ α) s :=
  leads_of_ok rfl ((composes_taking step).refl s)

theorem leads_onMachine {action : MachineM Raised σ α} (h : Leads (Trail step) action s.machine) :
    Leads (Taking step) (onMachine action) s := by
  cases hRun : action s.machine with
  | ok a m => exact leads_of_ok (onMachine_of_ok hRun) ⟨rfl, h.of_ok hRun⟩
  | error e m => exact leads_of_error (onMachine_of_error hRun) ⟨rfl, h.of_error hRun⟩

theorem leads_emit {e : Event} (h : step s.machine none (s.machine.log e)) :
    Leads (Taking step) (emit e) s :=
  leads_onMachine (leads_of_ok rfl (.single h))

theorem leads_onStorage {action : HostM Fault σ α}
    (h : step s.machine ((letsOut action s.machine.host).map .fault) (s.machine.after action)) :
    Leads (Taking step) (onStorage action) s := by
  refine leads_onMachine ?_
  cases hRun : action s.machine.host with
  | ok a host =>
      have hOk : raising action s.machine.host = .ok a host := by simp only [raising, hRun]
      simp only [letsOut, Machine.after, endState, hRun] at h
      exact leads_of_ok (Execute.onHost_ok hOk) (.single h)
  | error f host =>
      have hError : raising action s.machine.host = .error (.fault f) host := by
        simp only [raising, hRun]
      simp only [letsOut, Machine.after, endState, hRun] at h
      exact leads_of_error (Execute.onHost_error hError) (.single h)

end Taking

/-! ## Ticks on the machine -/

/-- What lies between two moments, as the machine sees it. Nothing happens on it while
something is on its way out. -/
def Shows (shell : Shell σ) (a b : Moment σ) : Prop :=
  match a.leaving with
  | none => Trail (Step shell) a.session.machine b.leaving b.session.machine
  | some e => b.leaving = some e ∧ b.session.machine = a.session.machine

section Shows

variable {shell : Shell σ}

theorem Shows.refl (a : Moment σ) : Shows shell a a := by
  obtain ⟨s, e⟩ := a
  cases e with
  | none => exact .done s.machine
  | some e => exact ⟨rfl, rfl⟩

theorem Shows.trans {a b c : Moment σ} (h : Shows shell a b) (h' : Shows shell b c) :
    Shows shell a c := by
  obtain ⟨s, e⟩ := a
  obtain ⟨s₁, e₁⟩ := b
  cases e with
  | none =>
      cases e₁ with
      | none => exact (composes_trail _).trans h h'
      | some e₁ =>
          obtain ⟨hLeaving, hMachine⟩ := h'
          show Trail _ s.machine c.leaving c.session.machine
          rw [hLeaving, hMachine]
          exact h
  | some e =>
      obtain ⟨rfl, hMachine⟩ : e₁ = some e ∧ s₁.machine = s.machine := h
      exact ⟨h'.1, h'.2.trans hMachine⟩

theorem Shows.of_tick {origin : Session σ} {a b : Moment σ} (h : Tick shell origin a b) :
    Shows shell a b := by
  cases h with
  | ran _ hRun => exact .single (.of_run_ok rfl hRun)
  | broke _ hRun => exact .single (.of_run_error rfl hRun)
  | changed c s => exact .done s.machine
  | @looked _ hIsDir path s => exact .single (.look hIsDir path s.machine)
  | @moved _ s => exact .done s.machine
  | @said e hRemark =>
      have hQuiet : e.isQuiet = true := by cases e <;> first | rfl | cases hRemark
      exact .single (.said hQuiet _)
  | entered => exact .single (.said rfl _)
  | @left s _ e =>
      cases e with
      | none => exact .done s.machine
      | some e => exact ⟨rfl, rfl⟩
  | misread s => exact .done s.machine
  | asked => exact .single (.said rfl _)

theorem Passing.taking {origin s t : Session σ} {e : Option Raised}
    (h : Passing shell origin s e t) : Taking (Step shell) s e t := by
  have hShows : Shows shell ⟨s, none⟩ ⟨t, e⟩ := h.lift Shows.refl Shows.trans Shows.of_tick
  exact ⟨h.depth_eq, hShows⟩

end Shows

/-! ## Calls -/

/-- The line is not run, or it is run with a renewed signal. -/
def Evaluates (shell : Shell σ) (s : Session σ) (e : Option Raised) (t : Session σ) : Prop :=
  e = none ∧ t.depth = s.depth ∧ t.machine = s.machine ∨ Taking (Step shell) s.renewed e t

/-- Without aliases, the words of a line stay as they are. -/
theorem parse_of_isEmpty {s : Session σ} {line : String} {tokens filled : List Token}
    {trees : List Tree} (hAliases : s.aliases.entries = [])
    (hTokens : Token.tokenize line = .ok tokens)
    (hFilled : Token.expandVariablesList s.expansionEnv tokens = .ok filled)
    (hTrees : Tree.build filled = .ok trees) : s.parse line = .ok trees := by
  unfold parse parseWith
  rw [hTokens]
  show (Token.expandAliases s.aliases tokens).mapError _ >>= _ = _
  rw [Token.expandAliases, Token.expandLive_of_isEmpty hAliases]
  show Token.expandVariablesList s.expansionEnv tokens >>= _ = _
  rw [hFilled]
  show (Tree.build filled).mapError _ = _
  rw [hTrees]
  rfl

section Calls

variable {shell : Shell σ}

theorem leads_runLines (lines : List String) (s : Session σ) :
    Leads (Taking (Step shell)) (runLines shell lines) s :=
  Passing.taking (passes_runLines lines s)

theorem leads_apply (c : Changes) (s : Session σ) :
    Leads (Taking (Step shell)) (apply shell c) s :=
  Passing.taking (passes_apply c s)

theorem leads_evaluate (line : String) (s : Session σ) :
    Leads (Evaluates shell) (evaluate shell line) s := by
  have hLine : Opening shell s s _ _ := passes_evaluate line s
  rcases hLine with ⟨hNone, hSame | hSame⟩ | hPassing
  · exact .inl ⟨hNone, by rw [hSame], by rw [hSame]⟩
  · exact .inl ⟨hNone, by rw [hSame], by rw [hSame]⟩
  · exact .inr hPassing.taking

theorem leads_runProfile (s : Session σ) :
    Leads (Taking (ProfileStep shell s.profilePath)) (runProfile shell) s := by
  have hC := composes_taking (ProfileStep shell s.profilePath)
  have hCall : ∀ {s₁ t : Session σ} {e : Option Raised},
      Taking (Step shell) s₁ e t → Taking (ProfileStep shell s.profilePath) s₁ e t :=
    fun h => ⟨h.1, h.2.lift (composes_trail _) fun hStep => .single (.call hStep)⟩
  unfold runProfile
  refine leads_bind_of_ok rfl ?_
  refine hC.leads_bind (leads_onStorage (.ask s.machine)) fun found s₁ _ => ?_
  cases found with
  | false => exact leads_pure _
  | true =>
      refine hC.leads_bind (leads_onMachine ?_) fun content s₂ _ => ?_
      · exact leads_of_ok (Execute.attempt_onHost _ _) (.single (.read _))
      · cases content with
        | error fault =>
            exact hC.leads_bind (leads_emit (.call (.said rfl _))) fun _ s₃ _ => leads_pure _
        | ok content =>
            refine hC.leads_bind (hCall (leads_runLines _ s₂)) fun output s₃ _ => ?_
            by_cases hStatus : output.status = 0
            · simp only [hStatus, ne_eq, not_true_eq_false, if_false]
              exact leads_pure _
            · simp only [hStatus, ne_eq, not_false_eq_true, if_true]
              exact hC.leads_bind (leads_emit (.call (.said rfl _))) fun _ s₄ _ => leads_pure _

end Calls

end Session

end MemShell
