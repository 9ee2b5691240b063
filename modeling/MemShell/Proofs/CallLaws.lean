import MemShell.Proofs.SessionSteps

/-!
# Laws of calls from laws of trees

Some laws of a session are not laws of its ticks: they tie the changes that are made to
the tree that asked for them, and so they are laws of one tree with all that is done
because of it, the files it sources included. Such a law goes from trees to calls without
looking into a tree again. What is left to be said is what lies between the trees: a line
that cannot be read, the signal that is renewed, the depth that is raised and given back,
and how the profile is found.

The lines that a tree sources are run by a function that the tree is given, and the law of
a tree may assume it of that function. The induction is on the room.

## Main results

* `CallLaw.evaluate`, `CallLaw.runLines`, `CallLaw.runProfile` — the law of the calls.
-/

namespace MemShell.Session

variable {σ α : Type}

/-- Whether an event is written down about the profile. -/
def tellsOfProfile : Event → Bool
  | .profileUnreadable _ _ | .profileFailed _ _ => true
  | _ => false

/-- A relation that holds of every tree, if it holds of the lines that trees source, and
of what lies between trees. -/
structure CallLaw (shell : Shell σ) (R : Session σ → Option Raised → Session σ → Prop) :
    Prop where
  composes : Composes R
  tree : ∀ {sourcing : List String → SessionM σ Output},
    (∀ lines s, Leads R (sourcing lines) s) →
      ∀ (tree : Tree) (s : Session σ), Leads R (Session.runTree sourcing shell tree) s
  renewed : ∀ s : Session σ, R s none s.renewed
  misread : ∀ s : Session σ, R s none { s with lastStatus := syntaxErrorStatus }
  nested : ∀ {s t : Session σ} {e : Option Raised},
    R s.deeper e t → R s e { t with depth := t.depth - 1 }
  asked : ∀ (path : String) (s : Session σ),
    R s ((letsOut (shell.storage.contains path) s.machine.host).map .fault)
      { s with machine := s.machine.after (shell.storage.contains path) }
  read : ∀ (path : String) (s : Session σ),
    R s none { s with machine := s.machine.after (shell.storage.read path) }
  said : ∀ {e : Event}, tellsOfProfile e = true →
    ∀ s : Session σ, R s none { s with machine := s.machine.log e }

/-- The lines among changes are run first; what follows does not depend on them. -/
theorem leads_sourced {R : Session σ → Option Raised → Session σ → Prop} (hR : Composes R)
    {sourcing : List String → SessionM σ Output}
    (hSourcing : ∀ lines s, Leads R (sourcing lines) s) (lines : List String)
    {next : Option Output → SessionM σ α} (hNext : ∀ extra s, Leads R (next extra) s)
    (s : Session σ) :
    Leads R
      (if lines.isEmpty then pure none >>= next else (some <$> sourcing lines) >>= next) s := by
  cases lines.isEmpty with
  | true => exact hR.leads_bind_of_ok rfl (hR.refl s) (hNext none s)
  | false =>
      refine hR.leads_bind ?_ fun extra s₁ _ => hNext extra s₁
      exact hR.leads_bind (hSourcing lines s) fun _ s₁ _ => leads_of_ok rfl (hR.refl s₁)

namespace CallLaw

variable {shell : Shell σ} {R : Session σ → Option Raised → Session σ → Prop}
  (hLaw : CallLaw shell R)
include hLaw

theorem pure (a : α) (s : Session σ) : Leads R (Pure.pure a : SessionM σ α) s :=
  leads_of_ok rfl (hLaw.composes.refl s)

section Lines

variable {sourcing : List String → SessionM σ Output}
  (hSourcing : ∀ lines s, Leads R (sourcing lines) s)
include hSourcing

theorem runTrees (trees : List Tree) :
    ∀ (before : Output) (s : Session σ),
      Leads R (Session.runTrees sourcing shell trees before) s := by
  induction trees with
  | nil => exact fun before s => hLaw.pure before s
  | cons tree trees ih =>
      intro before s
      refine hLaw.composes.leads_bind (hLaw.tree hSourcing tree s) fun output s₁ _ => ?_
      refine leads_bind_of_ok rfl ?_
      split
      · exact hLaw.pure _ s₁
      · exact ih _ s₁

theorem evaluateWith (line : String) (s : Session σ) :
    Leads R (Session.evaluateWith sourcing shell line) s := by
  cases hHas : Builtin.hasCommand line with
  | false =>
      exact leads_of_ok (evaluateWith_of_blank sourcing shell hHas) (hLaw.composes.refl s)
  | true =>
      cases hParse : s.parse line with
      | error e =>
          exact leads_of_ok (evaluateWith_of_error sourcing shell hHas hParse) (hLaw.misread s)
      | ok trees =>
          have hTrees := hLaw.runTrees hSourcing trees { status := s.lastStatus } s.renewed
          have hLine := hLaw.composes.trans (hLaw.renewed s) hTrees
          unfold Leads letsOut endState at hLine ⊢
          rwa [evaluateWith_of_parse sourcing shell hHas hParse]

theorem runEach (lines : List String) :
    ∀ (before : Output) (s : Session σ),
      Leads R (Session.runEach (Session.evaluateWith sourcing shell) lines before) s := by
  induction lines with
  | nil => exact fun before s => hLaw.pure before s
  | cons line lines ih =>
      intro before s
      refine hLaw.composes.leads_bind (hLaw.evaluateWith hSourcing line s) fun output s₁ _ => ?_
      refine leads_bind_of_ok rfl ?_
      split
      · exact hLaw.pure _ s₁
      · exact ih _ s₁

end Lines

theorem runLinesIn (room : Nat) :
    ∀ (lines : List String) (s : Session σ), Leads R (Session.runLinesIn shell room lines) s := by
  induction room with
  | zero => exact fun lines s => hLaw.pure _ s
  | succ room ih =>
      intro lines s
      have hLines := hLaw.runEach ih lines {} s.deeper
      cases hRun : Session.runEach (Session.evaluateWith (Session.runLinesIn shell room) shell)
          lines {} s.deeper with
      | ok out t => exact leads_of_ok (nested_ok hRun) (hLaw.nested (hLines.of_ok hRun))
      | error e t => exact leads_of_error (nested_error hRun) (hLaw.nested (hLines.of_error hRun))

/-! ## Calls -/

theorem runLines (lines : List String) (s : Session σ) :
    Leads R (Session.runLines shell lines) s :=
  (hLaw.runLinesIn s.room lines s).congr rfl

theorem evaluate (line : String) (s : Session σ) : Leads R (Session.evaluate shell line) s :=
  (hLaw.evaluateWith (hLaw.runLinesIn s.room) line s).congr rfl

theorem contains (path : String) (s : Session σ) :
    Leads R (onStorage (shell.storage.contains path)) s := by
  have hAsk := onStorage_eq (shell.storage.contains path) s
  have hAsked := hLaw.asked path s
  cases hAnswer : shell.storage.contains path s.machine.host with
  | ok found host =>
      simp only [answerOf, letsOut, hAnswer] at hAsk hAsked
      exact leads_of_ok hAsk hAsked
  | error f host =>
      simp only [answerOf, letsOut, hAnswer] at hAsk hAsked
      exact leads_of_error hAsk hAsked

theorem runProfile (s : Session σ) : Leads R (Session.runProfile shell) s := by
  have hC := hLaw.composes
  have hSay : ∀ {e : Event}, tellsOfProfile e = true → ∀ s : Session σ, Leads R (emit e) s :=
    fun hTells s => leads_of_ok rfl (hLaw.said hTells s)
  unfold Session.runProfile
  refine leads_bind_of_ok rfl ?_
  refine hC.leads_bind (hLaw.contains s.profilePath s) fun found s₁ _ => ?_
  cases found with
  | false => exact hLaw.pure _ s₁
  | true =>
      have hRead : Leads R (onMachine (attempt (Execute.onHost (shell.storage.read s.profilePath))))
          s₁ :=
        leads_of_ok (onMachine_of_ok (Execute.attempt_onHost _ _)) (hLaw.read _ s₁)
      refine hC.leads_bind hRead fun content s₂ _ => ?_
      cases content with
      | error fault => exact hC.leads_bind (hSay rfl s₂) fun _ s₃ _ => hLaw.pure _ s₃
      | ok content =>
          refine hC.leads_bind (hLaw.runLines _ s₂) fun output s₃ _ => ?_
          by_cases hStatus : output.status = 0
          · simp only [hStatus, ne_eq, not_true_eq_false, if_false]
            exact hLaw.pure _ s₃
          · simp only [hStatus, ne_eq, not_false_eq_true, if_true]
            exact hC.leads_bind (hSay rfl s₃) fun _ s₄ _ => hLaw.pure _ s₄

end CallLaw

end MemShell.Session
