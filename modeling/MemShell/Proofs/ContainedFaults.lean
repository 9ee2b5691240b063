import MemShell.Proofs.CallTrails

/-!
# Which failures get out

A fault is an ordinary failure, of a command or of the store. Running a tree meets
every fault: whatever fails, at whichever command, the run ends with an outcome. Only
an interrupt and a cancellation get out of a tree, and only if a command ended by it;
that command is then the last thing that happened (`run_contained`).

A session asks the store questions of its own, outside of any tree: whether the
directory it is to move to is still there, and whether there is a profile. The fault
of such a question is not met. This is the one way for a fault to get out of a
session (`evaluate_contained`, `runProfile_contained`), and every store that can fail
there lets a fault out of some session (`evaluate_of_unanswered`, `letsOut_runProfile`).

## Main results

* `run_contained` — what gets out of a tree.
* `contained_iff_answers` — what gets out of a session, and for which stores nothing
  does.
-/

namespace MemShell

open Execute

/-! ## Trees -/

/-- What a command ended with that is not met. -/
def Event.letOut? : Event → Option Raised
  | .ended _ (.raised .interrupt) _ => some .interrupt
  | .ended _ (.raised .cancelled) _ => some .cancelled
  | _ => none

theorem Event.letOut?_of_isQuiet {e : Event} (h : e.isQuiet = true) : e.letOut? = none := by
  cases e <;> first | rfl | cases h

section Trees

variable {σ : Type}

/-- The command of this name, called with these arguments in the context, ends with
this. -/
def Raises (registry : Registry (Command σ)) (ctx : Context σ) (c : Simple) (e : Raised) : Prop :=
  ∃ command stdin host, registry.resolve ctx.env c.command = some command ∧
    answerOf (call registry { ctx with stdin } c command) host = .error e

/-- The last event of a run that ends like this, if it ends by letting something out. -/
inductive Closing : Option Raised → List Event → Prop
  | returned : Closing none []
  | raised (command : String) (stopped : Bool) {e : Raised} (h : e = .interrupt ∨ e = .cancelled) :
      Closing (some e) [.ended command (.raised e) stopped]

/-- Nothing was let out before the end, and the end shows in the trace. -/
def Contained (m : Machine σ) (e : Option Raised) (m' : Machine σ) : Prop :=
  ∃ es last, Since m m' (es ++ last) ∧ (∀ event ∈ es, event.letOut? = none) ∧ Closing e last

theorem composes_contained : Composes (Contained (σ := σ)) where
  refl := fun m => ⟨[], [], Since.refl m, by simp, .returned⟩
  trans := by
    rintro m m₁ m' e ⟨es, last, hSince, hNone, ⟨⟩⟩ ⟨fs, last, hSince', hNone', hClosing⟩
    refine ⟨es ++ fs, last, ?_, ?_, hClosing⟩
    · simpa using hSince.trans hSince'
    · intro event hMem
      rcases List.mem_append.mp hMem with hMem | hMem
      · exact hNone event hMem
      · exact hNone' event hMem

theorem contained_of_quietly {m m' : Machine σ} (h : Quietly m m') : Contained m none m' := by
  obtain ⟨es, hSince, hQuiet⟩ := h
  refine ⟨es, [], by simpa using hSince, fun event hMem => ?_, .returned⟩
  exact Event.letOut?_of_isQuiet (hQuiet event hMem)

/-- A command that is called and met lets nothing out. -/
theorem contained_of_met {registry : Registry (Command σ)} {ctx : Context σ} {c : Simple}
    {command : Command σ} {m : Machine σ}
    (hMet : ∀ e, answerOf (call registry ctx c command) m.host = .error e → ∃ f, e = .fault f) :
    Contained m none (called registry ctx c command m) := by
  obtain ⟨notes, hSince⟩ := since_called registry ctx c command m
  refine ⟨_, [], by simpa using hSince, fun event hMem => ?_, .returned⟩
  simp only [List.mem_cons, List.mem_append, List.mem_map, List.not_mem_nil, or_false] at hMem
  rcases hMem with rfl | ⟨note, -, rfl⟩ | rfl
  · rfl
  · rfl
  · match hAnswer : answerOf (call registry ctx c command) m.host with
    | .ok (some o) => rfl
    | .ok none => rfl
    | .error (.fault f) => rfl
    | .error .interrupt => simpa using hMet _ hAnswer
    | .error .cancelled => simpa using hMet _ hAnswer

theorem contained_of_letOut {registry : Registry (Command σ)} {ctx : Context σ} {c : Simple}
    {command : Command σ} {m : Machine σ} {e : Raised}
    (hOut : answerOf (call registry ctx c command) m.host = .error e)
    (hUnmet : e = .interrupt ∨ e = .cancelled) :
    Contained m (some e) (called registry ctx c command m) := by
  obtain ⟨notes, hSince⟩ := since_called registry ctx c command m
  rw [hOut] at hSince
  refine ⟨_, _, hSince, fun event hMem => ?_, .raised _ _ hUnmet⟩
  simp only [List.mem_cons, List.mem_map] at hMem
  rcases hMem with rfl | ⟨note, -, rfl⟩
  · rfl
  · rfl

theorem contained_of_simpleRun {registry : Registry (Command σ)} {ctx : Context σ} {c : Simple}
    {m m' : Machine σ} {e : Option Raised} (h : SimpleRun registry ctx c m e m') :
    Contained m e m' := by
  have hC := composes_contained (σ := σ)
  cases h with
  | unstarted hReads => exact contained_of_quietly (quietly_of_reads hReads)
  | met stdin hReads _ hMet hWrites =>
      have hCalled := hC.trans (contained_of_quietly (quietly_of_reads hReads))
        (contained_of_met hMet)
      exact hC.trans hCalled (contained_of_quietly (quietly_of_writes hWrites))
  | letOut stdin hReads _ hOut hUnmet =>
      exact hC.trans (contained_of_quietly (quietly_of_reads hReads))
        (contained_of_letOut hOut hUnmet)

theorem contained_of_treeRun {registry : Registry (Command σ)} {ctx : Context σ}
    {cs : List Simple} {m m' : Machine σ} {e : Option Raised}
    (h : TreeRun registry ctx cs m e m') : Contained m e m' := by
  refine h.lift composes_contained ?_ ?_ fun _ _ hRun => contained_of_simpleRun hRun
  · intro m _
    exact ⟨[.interrupted], [], by simpa using Since.log m .interrupted, by simp [Event.letOut?],
      .returned⟩
  · exact fun m _ _ _ _ => contained_of_quietly (.log m rfl)

theorem raises_of_simpleRun {registry : Registry (Command σ)} {ctx : Context σ} {stdin : String}
    {c : Simple} {m m' : Machine σ} {e : Raised}
    (h : SimpleRun registry { ctx with stdin } c m (some e) m') : Raises registry ctx c e := by
  cases h with
  | letOut stdin _ hResolve hOut _ => exact ⟨_, stdin, _, hResolve, hOut⟩

/-- What gets out of a tree was raised by one of its commands. -/
theorem raises_of_treeRun {registry : Registry (Command σ)} {ctx : Context σ} {cs : List Simple}
    {m m' : Machine σ} {e : Raised} (h : TreeRun registry ctx cs m (some e) m') :
    ∃ c ∈ cs, Raises registry ctx c e := by
  generalize hSome : some e = e' at h
  induction h with
  | done => cases hSome
  | passed c _ ih =>
      obtain ⟨d, hMem, hRaises⟩ := ih hSome
      exact ⟨d, List.mem_cons_of_mem c hMem, hRaises⟩
  | @ran c _ _ _ _ _ _ _ _ ih =>
      obtain ⟨d, hMem, hRaises⟩ := ih hSome
      exact ⟨d, List.mem_cons_of_mem c hMem, hRaises⟩
  | @letOut c _ _ _ _ _ hOut =>
      cases hSome
      exact ⟨c, List.mem_cons_self, raises_of_simpleRun (simpleRun_of_letsOut hOut)⟩
  | interrupted _ _ ih => exact ih hSome
  | stageEnded _ _ _ _ _ ih => exact ih hSome

/--
**Failures in a tree.** Running a tree gives an outcome unless one of its commands
ends by an interrupt or a cancellation; then that is what gets out, and nothing
happens after it.
-/
theorem run_contained (registry : Registry (Command σ)) (ctx : Context σ) (tree : Tree)
    (m : Machine σ) :
    match Execute.run registry ctx tree m with
    | .ok _ m' => ∀ event ∈ newEvents m m', event.letOut? = none
    | .error e m' =>
        (e = .interrupt ∨ e = .cancelled) ∧ (∃ c ∈ tree.simples, Raises registry ctx c e) ∧
          ∃ before command stopped,
            newEvents m m' = before ++ [.ended command (.raised e) stopped] ∧
              ∀ event ∈ before, event.letOut? = none := by
  have hTree := treeRun_run registry ctx tree m
  cases hRun : Execute.run registry ctx tree m with
  | ok o m' =>
      obtain ⟨es, last, hSince, hNone, ⟨⟩⟩ := contained_of_treeRun (hTree.of_ok hRun)
      intro event hMem
      rw [hSince.newEvents_eq, List.append_nil] at hMem
      exact hNone event hMem
  | error e m' =>
      obtain ⟨es, last, hSince, hNone, hClosing⟩ := contained_of_treeRun (hTree.of_error hRun)
      cases hClosing with
      | raised command stopped hUnmet =>
          refine ⟨hUnmet, raises_of_treeRun (hTree.of_error hRun), es, command, stopped, ?_, hNone⟩
          exact hSince.newEvents_eq

end Trees

/-! ## Sessions -/

/-- Every command ends with an outcome, with nothing usable or with a fault. -/
def Registry.Ordinary {σ : Type} (registry : Registry (Command σ)) : Prop :=
  ∀ env name command, registry.resolve env name = some command →
    ∀ call host e, answerOf (command call) host = .error e → ∃ f, e = .fault f

/-- A question to the store ended with a fault: that is what gets out, and the
machine is as the question left it. -/
def Unanswered {σ : Type} (question : HostM Fault σ Bool) (e : Raised) (m : Machine σ) : Prop :=
  ∃ (before : Machine σ) (f : Fault), letsOut question before.host = some f ∧ e = .fault f ∧
    m = before.after question

/-- The session did not learn whether a directory is there. -/
def LookFailed {σ : Type} (storage : Storage σ) (e : Raised) (m : Machine σ) : Prop :=
  ∃ isDir path, storage.isDir = some isDir ∧ Unanswered (isDir path) e m

/-- The store answers whatever a session asks it by itself. -/
structure Storage.Answers {σ : Type} (storage : Storage σ) : Prop where
  isDir : ∀ isDir, storage.isDir = some isDir →
    ∀ (path : String) (m : Machine σ), letsOut (isDir path) m.host = none
  contains : ∀ s : Session σ, letsOut (storage.contains s.profilePath) s.machine.host = none

namespace Session

variable {σ : Type} {shell : Shell σ}

theorem letsOut_run_of_ordinary {registry : Registry (Command σ)} (hOrdinary : registry.Ordinary)
    (ctx : Context σ) (tree : Tree) (m : Machine σ) :
    letsOut (Execute.run registry ctx tree) m = none := by
  have hTree := treeRun_run registry ctx tree m
  unfold letsOut
  cases hRun : Execute.run registry ctx tree m with
  | ok o m' => rfl
  | error e m' =>
      obtain ⟨_, _, _, _, hClosing⟩ := contained_of_treeRun (hTree.of_error hRun)
      obtain ⟨c, -, command, stdin, host, hResolve, hAnswer⟩ :=
        raises_of_treeRun (hTree.of_error hRun)
      obtain ⟨f, rfl⟩ := hOrdinary _ _ _ hResolve _ _ _ hAnswer
      cases hClosing with
      | raised _ _ hUnmet => simp at hUnmet

/-- Whatever is let out is let out like this. -/
def LetsOutOnly (P : Raised → Machine σ → Prop) (_ : Machine σ) (e : Option Raised)
    (m' : Machine σ) : Prop :=
  ∀ r, e = some r → P r m'

theorem composes_letsOutOnly (P : Raised → Machine σ → Prop) : Composes (LetsOutOnly P) where
  refl := fun _ _ h => by cases h
  trans := fun _ h' => h'

/-- What is let out of a question is its fault. -/
theorem unanswered_of_letsOut {question : HostM Fault σ Bool} {m : Machine σ} {r : Raised}
    (h : (letsOut question m.host).map .fault = some r) :
    Unanswered question r (m.after question) := by
  obtain ⟨f, hOut, rfl⟩ := Option.map_eq_some_iff.mp h
  exact ⟨m, f, hOut, rfl, rfl⟩

theorem letsOutOnly_of_step (hOrdinary : shell.registry.Ordinary) {m m' : Machine σ}
    {e : Option Raised} (h : Step shell m e m') :
    LetsOutOnly (LookFailed shell.storage) m e m' := by
  intro r hOut
  cases h with
  | tree =>
      rw [letsOut_run_of_ordinary hOrdinary] at hOut
      cases hOut
  | look hIsDir path => exact ⟨_, path, hIsDir, unanswered_of_letsOut hOut⟩
  | said => cases hOut

theorem letsOutOnly_of_profileStep (hOrdinary : shell.registry.Ordinary) {path : String}
    {m m' : Machine σ} {e : Option Raised} (h : ProfileStep shell path m e m') :
    LetsOutOnly (fun r m' => LookFailed shell.storage r m' ∨
      Unanswered (shell.storage.contains path) r m') m e m' := by
  intro r hOut
  cases h with
  | call hStep => exact .inl (letsOutOnly_of_step hOrdinary hStep r hOut)
  | ask => exact .inr (unanswered_of_letsOut hOut)
  | read => cases hOut

/-- A line returns, or the session did not learn whether a directory is there. -/
theorem evaluate_contained (hOrdinary : shell.registry.Ordinary) (line : String)
    (s : Session σ) :
    (∃ out t, evaluate shell line s = .ok out t) ∨
      ∃ e t, evaluate shell line s = .error e t ∧ LookFailed shell.storage e t.machine := by
  have hEvaluate : Leads (Evaluates shell) (evaluate shell line) s := leads_evaluate line s
  cases hRun : evaluate shell line s with
  | ok out t => exact .inl ⟨out, t, rfl⟩
  | error e t =>
      refine .inr ⟨e, t, rfl, ?_⟩
      rcases hEvaluate.of_error hRun with ⟨hNone, -⟩ | ⟨-, hTrail⟩
      · cases hNone
      · exact hTrail.lift (composes_letsOutOnly _) (letsOutOnly_of_step hOrdinary) e rfl

/-- The profile returns, or the session did not learn whether it is there or whether a
directory is. -/
theorem runProfile_contained (hOrdinary : shell.registry.Ordinary) (s : Session σ) :
    (∃ out t, runProfile shell s = .ok out t) ∨
      ∃ e t, runProfile shell s = .error e t ∧ (LookFailed shell.storage e t.machine ∨
        Unanswered (shell.storage.contains s.profilePath) e t.machine) := by
  have hProfile : Leads (Taking (ProfileStep shell s.profilePath)) (runProfile shell) s :=
    leads_runProfile s
  cases hRun : runProfile shell s with
  | ok out t => exact .inl ⟨out, t, rfl⟩
  | error e t =>
      refine .inr ⟨e, t, rfl, ?_⟩
      obtain ⟨-, hTrail⟩ := hProfile.of_error hRun
      exact hTrail.lift (composes_letsOutOnly _) (letsOutOnly_of_profileStep hOrdinary) e rfl

theorem not_lookFailed {storage : Storage σ} (h : storage.Answers) {e : Raised} {m : Machine σ} :
    ¬ LookFailed storage e m := by
  rintro ⟨isDir, path, hIsDir, before, f, hOut, -, -⟩
  rw [h.isDir isDir hIsDir] at hOut
  cases hOut

/-! ## Stores that do not answer -/

/-- A command that leaves the host like that of a machine and asks to move. -/
def moving (m : Machine σ) (path : String) : Command σ := fun _ h =>
  .ok (some (.changing { chdir := some path })) { h with store := m.store, signal := m.signal }

def movingRegistry (m : Machine σ) (path : String) : Registry (Command σ) :=
  ({} : Registry (Command σ)).add "go" (moving m path)

/-- A session with nothing in it. -/
def bare (store : σ) : Session σ :=
  { env := ∅, machine := { store } }

theorem parse_bare (store : σ) : (bare store).parse "go" = .ok [.simple ⟨"go", [], []⟩] :=
  parse_of_isEmpty rfl (rfl : Token.tokenize "go" = .ok [⟨.word, "go"⟩]) rfl rfl

theorem letsOut_onStorage {α : Type} (action : HostM Fault σ α) (s : Session σ) :
    letsOut (onStorage action) s = (letsOut action s.machine.host).map .fault := by
  unfold letsOut onStorage onMachine Execute.onHost raising
  cases action s.machine.host <;> rfl

theorem letsOut_changeDir {isDir : String → HostM Fault σ Bool}
    (hIsDir : shell.storage.isDir = some isDir) {path : String} {f : Fault} {s : Session σ}
    (hOut : letsOut (isDir path) s.machine.host = some f) :
    letsOut (changeDir shell (some path)) s = some (.fault f) := by
  unfold changeDir
  simp only [hIsDir]
  refine letsOut_bind_of_letsOut ?_
  rw [letsOut_onStorage, hOut]
  rfl

theorem letsOut_applyWith {isDir : String → HostM Fault σ Bool}
    (hIsDir : shell.storage.isDir = some isDir) {path : String} {f : Fault} {s : Session σ}
    (hOut : letsOut (isDir path) s.machine.host = some f)
    (sourcing : List String → SessionM σ Output) {c : Changes} (hDir : c.chdir = some path) :
    letsOut (applyWith sourcing shell c) s = some (.fault f) := by
  unfold applyWith
  refine (letsOut_bind_of_ok rfl).trans ?_
  refine letsOut_bind_of_letsOut ?_
  rw [hDir]
  exact letsOut_changeDir hIsDir hOut

/-- A store that cannot always tell whether a directory is there lets its fault out of
a session in which a command asks to move. -/
theorem evaluate_of_unanswered {storage : Storage σ} {isDir : String → HostM Fault σ Bool}
    (hIsDir : storage.isDir = some isDir) {path : String} {m : Machine σ} {f : Fault}
    (hOut : letsOut (isDir path) m.host = some f) :
    letsOut (evaluate ⟨storage, movingRegistry m path⟩ "go") (bare m.store) =
      some (.fault f) := by
  have hHas : Builtin.hasCommand "go" = true := by decide +kernel
  have hLine : evaluate ⟨storage, movingRegistry m path⟩ "go" (bare m.store) =
      runTrees (runLinesIn ⟨storage, movingRegistry m path⟩ maxDepth)
        ⟨storage, movingRegistry m path⟩ [.simple ⟨"go", [], []⟩] {} (bare m.store).renewed :=
    evaluateWith_of_parse _ _ hHas (parse_bare m.store)
  -- the tree ends well, on a host like that of `m`, and asks to move
  obtain ⟨m₁, hRun, hHost⟩ : ∃ m₁, Execute.run (movingRegistry m path)
      ((bare m.store).renewed.context ⟨storage, movingRegistry m path⟩) (.simple ⟨"go", [], []⟩)
      ((bare m.store).renewed.machine.log (.started (.simple ⟨"go", [], []⟩))) =
        .ok (.changing { chdir := some path }) m₁ ∧ m₁.host = m.host := ⟨_, rfl, rfl⟩
  unfold letsOut
  rw [hLine]
  show letsOut (runTrees _ _ _ _) _ = _
  unfold runTrees
  refine letsOut_bind_of_letsOut ?_
  unfold runTree
  refine (letsOut_bind_of_ok rfl).trans ?_
  refine (letsOut_bind_of_ok rfl).trans ?_
  refine (letsOut_bind_of_ok (onMachine_of_ok hRun)).trans ?_
  refine (letsOut_bind_of_ok rfl).trans ?_
  refine letsOut_bind_of_letsOut ?_
  refine letsOut_applyWith hIsDir ?_ _ rfl
  rw [← hOut, ← hHost]

theorem ordinary_movingRegistry (m : Machine σ) (path : String) :
    (movingRegistry m path).Ordinary := by
  intro env name command hResolve call host e hAnswer
  have hPrograms : ∀ o : Option String, o.bind (∅ : Table String (Command σ)).get? = none := by
    intro o
    cases o <;> rfl
  have hGet : (Table.insert ∅ "go" (moving m path)).get? name = some command := by
    simpa only [Registry.resolve, movingRegistry, Registry.add, hPrograms, Option.or_none]
      using hResolve
  rw [Table.get?_insert] at hGet
  split at hGet
  · cases hGet
    cases hAnswer
  · cases hGet

theorem letsOut_runProfile {s : Session σ} {f : Fault}
    (hOut : letsOut (shell.storage.contains s.profilePath) s.machine.host = some f) :
    letsOut (runProfile shell) s = some (.fault f) := by
  have hGet : (get : SessionM σ (Session σ)) s = .ok s s := rfl
  have hAsk : letsOut (onStorage (shell.storage.contains s.profilePath)) s = some (.fault f) := by
    rw [letsOut_onStorage, hOut]
    rfl
  unfold runProfile
  rw [letsOut_bind_of_ok hGet]
  exact letsOut_bind_of_letsOut hAsk

theorem not_ok_of_letsOut {α : Type} {action : SessionM σ α} {s : Session σ} {e : Raised}
    (h : letsOut action s = some e) : ¬ ∃ a t, action s = .ok a t := by
  rintro ⟨a, t, hRun⟩
  simp [letsOut, hRun] at h

/--
**Failures in a session.** Let no command end by an interrupt or a cancellation, and
let the operations of the store fail or not. A line and the profile return, unless a
question that the session itself puts to the store ends with a fault: whether the
directory it moves to is there, or whether there is a profile. Then that fault gets
out. So nothing gets out of any session exactly if the store answers these questions.
-/
theorem contained_iff_answers (storage : Storage σ) :
    (∀ registry : Registry (Command σ), registry.Ordinary → ∀ s : Session σ,
      (∀ line, (∃ out t, evaluate ⟨storage, registry⟩ line s = .ok out t) ∨
        ∃ e t, evaluate ⟨storage, registry⟩ line s = .error e t ∧
          LookFailed storage e t.machine) ∧
      ((∃ out t, runProfile ⟨storage, registry⟩ s = .ok out t) ∨
        ∃ e t, runProfile ⟨storage, registry⟩ s = .error e t ∧
          (LookFailed storage e t.machine ∨
            Unanswered (storage.contains s.profilePath) e t.machine))) ∧
    ((∀ registry : Registry (Command σ), registry.Ordinary → ∀ s : Session σ,
      (∀ line, ∃ out t, evaluate ⟨storage, registry⟩ line s = .ok out t) ∧
        ∃ out t, runProfile ⟨storage, registry⟩ s = .ok out t) ↔ storage.Answers) := by
  refine ⟨fun registry hOrdinary s => ⟨fun line => ?_, ?_⟩, ?_, ?_⟩
  · exact evaluate_contained hOrdinary line s
  · exact runProfile_contained hOrdinary s
  · intro hReturns
    refine ⟨fun isDir hIsDir path m => ?_, fun s => ?_⟩
    · cases hOut : letsOut (isDir path) m.host with
      | none => rfl
      | some f =>
          have hLine := (hReturns _ (ordinary_movingRegistry m path) (bare m.store)).1 "go"
          exact absurd hLine (not_ok_of_letsOut (evaluate_of_unanswered hIsDir hOut))
    · cases hOut : letsOut (storage.contains s.profilePath) s.machine.host with
      | none => rfl
      | some f =>
          have hProfile := (hReturns _ (ordinary_movingRegistry s.machine "/") s).2
          exact absurd hProfile (not_ok_of_letsOut (letsOut_runProfile hOut))
  · intro hAnswers registry hOrdinary s
    refine ⟨fun line => ?_, ?_⟩
    · rcases @evaluate_contained σ ⟨storage, registry⟩ hOrdinary line s with hOk | hFailed
      · exact hOk
      · obtain ⟨e, t, -, hLook⟩ := hFailed
        exact absurd hLook (not_lookFailed hAnswers)
    · rcases @runProfile_contained σ ⟨storage, registry⟩ hOrdinary s with hOk | hFailed
      · exact hOk
      · obtain ⟨e, t, -, hLook | ⟨before, f, hOut, -, -⟩⟩ := hFailed
        · exact absurd hLook (not_lookFailed hAnswers)
        · have hAnswered := hAnswers.contains { s with machine := before }
          exact absurd (hAnswered.symm.trans hOut) (by simp)

/-- The store kept in memory, when it cannot tell what is a directory. -/
def unsureStorage : Storage FileTree :=
  { Storage.memory with isDir := some fun _ => throw (.failure "store down") }

/-- A machine with a directory to move to. -/
def machineWithTmp : Machine FileTree :=
  { store := FileTree.ofDirs ["/tmp"] }

/-- Its fault gets out of a session in which a command asks to move. -/
theorem contained_iff_answers_unsure :
    (movingRegistry machineWithTmp "/tmp").Ordinary ∧ ¬ unsureStorage.Answers ∧
      ∃ e t, evaluate ⟨unsureStorage, movingRegistry machineWithTmp "/tmp"⟩ "go"
          (bare machineWithTmp.store) = .error e t ∧ LookFailed unsureStorage e t.machine := by
  have hOrdinary := ordinary_movingRegistry machineWithTmp "/tmp"
  have hOut : letsOut (evaluate ⟨unsureStorage, movingRegistry machineWithTmp "/tmp"⟩ "go")
      (bare machineWithTmp.store) = some (.fault (.failure "store down")) :=
    evaluate_of_unanswered rfl rfl
  obtain ⟨hContained, hIff⟩ := contained_iff_answers unsureStorage
  refine ⟨hOrdinary, fun hAnswers => ?_, ?_⟩
  · exact not_ok_of_letsOut hOut ((hIff.mpr hAnswers _ hOrdinary _).1 "go")
  · rcases (hContained _ hOrdinary (bare machineWithTmp.store)).1 "go" with hOk | hFailed
    · exact absurd hOk (not_ok_of_letsOut hOut)
    · exact hFailed

end Session

end MemShell
