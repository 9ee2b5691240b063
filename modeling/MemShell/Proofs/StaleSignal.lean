import MemShell.Proofs.RaisedSignal

/-!
# A signal that outlives its line

The signal is meant for one line. A line that is evaluated on its own gets a new one,
so whatever is held back while it runs is held back because of one of its own commands.
The lines of a file and the profile are not evaluated on their own: the depth is raised
first, and the lines find the signal that the line before the file left behind. If that
one is up, the file is started and nothing in it runs, although none of its commands
was even called.

Both halves are read off the trace. Something held back is *warranted* if a command
that ended with the signal up stands before it among the events of the same call. That
a rising signal always shows as the end of a command (`Shown`) needs a store that has
nothing to do with the signal (`Storage.LeavesSignal`); the store kept in memory is one.

## Main results

* `Reached.depth_eq_zero` — between calls no file is being sourced.
* `Reached.accounted` — a signal that is up between calls was put up by a command.
* `stale_signal` — what the next call then does.
-/

namespace MemShell

open Execute
open Relation (ReflTransGen)

/-! ## What the trace shows of the signal -/

/-- A command ended with the signal up. -/
def Event.leavesUp : Event → Bool
  | .ended _ _ stopped => stopped
  | _ => false

/-- Nothing is held back unless a command ended with the signal up before. -/
def Warranted (es : List Event) : Prop :=
  ∀ before after, es = before ++ .interrupted :: after → ∃ e ∈ before, e.leavesUp = true

/-- The events that tell of trees and commands. -/
def loud (es : List Event) : List Event :=
  es.filter (!·.isQuiet)

@[simp] theorem loud_append (es fs : List Event) : loud (es ++ fs) = loud es ++ loud fs :=
  List.filter_append ..

theorem loud_eq_nil {es : List Event} (h : ∀ e ∈ es, e.isQuiet = true) : loud es = [] :=
  List.filter_eq_nil_iff.mpr fun e he => by simp [h e he]

theorem startedTrees_eq_nil {es : List Event} (h : ∀ e ∈ es, e.isQuiet = true) :
    startedTrees es = [] := by
  refine List.filterMap_eq_nil_iff.mpr fun e he => ?_
  have hQuiet := h e he
  cases e <;> first | rfl | cases hQuiet

theorem warranted_of_not_mem {es : List Event} (h : .interrupted ∉ es) : Warranted es := by
  rintro before after rfl
  exact absurd (List.mem_append_right before List.mem_cons_self) h

theorem not_mem_of_isQuiet {es : List Event} (h : ∀ e ∈ es, e.isQuiet = true) :
    .interrupted ∉ es :=
  fun hMem => absurd (h _ hMem) (by decide)

/-- What comes later is warranted by itself or by what came before. -/
theorem Warranted.append {es fs : List Event} (h : Warranted es)
    (h' : Warranted fs ∨ ∃ e ∈ es, e.leavesUp = true) : Warranted (es ++ fs) := by
  intro before after hSplit
  rcases List.append_eq_append_iff.mp hSplit with ⟨middle, rfl, hFs⟩ | ⟨middle, hEs, hRest⟩
  · rcases h' with hWarranted | ⟨e, hMem, hUp⟩
    · obtain ⟨e, hMem, hUp⟩ := hWarranted middle after hFs
      exact ⟨e, List.mem_append_right es hMem, hUp⟩
    · exact ⟨e, List.mem_append_left middle hMem, hUp⟩
  · cases middle with
    | nil =>
        obtain rfl : es = before := by simpa using hEs
        rcases h' with hWarranted | hBefore
        · obtain ⟨e, hMem, -⟩ := hWarranted [] after hRest.symm
          cases hMem
        · exact hBefore
    | cons e middle =>
        obtain ⟨rfl, -⟩ := List.cons_eq_cons.mp hRest
        exact h before middle hEs

/-- All that happens is that trees are started and held back. -/
def HeldBack (es : List Event) : Prop :=
  loud es = (startedTrees es).flatMap fun tree => [.started tree, .interrupted]

theorem HeldBack.eq_of_mem {es : List Event} (h : HeldBack es) {e : Event} (hMem : e ∈ es)
    (hNoise : e.isQuiet = false) : e = .interrupted ∨ ∃ tree, e = .started tree := by
  have hIn : e ∈ loud es := List.mem_filter.mpr ⟨hMem, by simp [hNoise]⟩
  rw [h] at hIn
  obtain ⟨tree, -, hPair⟩ := List.mem_flatMap.mp hIn
  rcases List.mem_cons.mp hPair with rfl | hLast
  · exact .inr ⟨tree, rfl⟩
  · exact .inl (List.mem_singleton.mp hLast)

/-- Nothing warrants that, if there is a tree at all. -/
theorem HeldBack.not_warranted {es : List Event} (h : HeldBack es)
    (hTrees : startedTrees es ≠ []) : ¬ Warranted es := by
  intro hWarranted
  have hHeld : .interrupted ∈ es := by
    obtain ⟨tree, trees, hCons⟩ := List.exists_cons_of_ne_nil hTrees
    have hIn : .interrupted ∈ loud es := by
      rw [h, hCons]
      simp
    exact (List.mem_filter.mp hIn).1
  obtain ⟨before, after, hSplit⟩ := List.append_of_mem hHeld
  obtain ⟨e, hMem, hUp⟩ := hWarranted before after hSplit
  -- the end of a command is neither of the two things that happen
  have hNoise : e.isQuiet = false := by cases e <;> first | rfl | cases hUp
  rcases h.eq_of_mem (by simp [hSplit, hMem]) hNoise with rfl | ⟨tree, rfl⟩
  · cases hUp
  · cases hUp

/-! ## Stores that have nothing to do with the signal -/

/-- An action after which the signal is as it was. -/
def LeavesSignal {σ α : Type} (action : HostM Fault σ α) : Prop :=
  ∀ m : Machine σ, (m.after action).signal = m.signal

/-- No operation of the store touches the signal. -/
structure Storage.LeavesSignal {σ : Type} (storage : Storage σ) : Prop where
  read : ∀ path, MemShell.LeavesSignal (storage.read path)
  write : ∀ path text, MemShell.LeavesSignal (storage.write path text)
  append : ∀ path text, MemShell.LeavesSignal (storage.append path text)
  contains : ∀ path, MemShell.LeavesSignal (storage.contains path)
  isDir : ∀ isDir path, storage.isDir = some isDir → MemShell.LeavesSignal (isDir path)

section Runs

variable {σ : Type}

theorem isStopped_congr {m m' : Machine σ} (h : m'.signal = m.signal) :
    m'.isStopped = m.isStopped := by
  simp only [Machine.isStopped, h]

/-- Quiet events at most lie between two machines, and the signal is as it was. -/
def Aside (m m' : Machine σ) : Prop :=
  Quietly m m' ∧ m'.signal = m.signal

section Store

variable {ctx : Context σ} {storage : Storage σ} (hStorage : ctx.storage = some storage)
  (hSignal : storage.LeavesSignal)
include hStorage hSignal

theorem aside_of_reads {m m' : Machine σ} (h : ReflTransGen (ReadStep ctx) m m') :
    Aside m m' := by
  refine ⟨quietly_of_reads h, ?_⟩
  induction h with
  | refl => rfl
  | tail _ hStep ih =>
      rw [← ih]
      cases hStep with
      | read hStorage' path =>
          obtain rfl : storage = _ := Option.some_inj.mp (hStorage.symm.trans hStorage')
          exact hSignal.read path _
      | said => rfl

theorem aside_of_writes {outputs : List Redirect} {m m' : Machine σ}
    (h : ReflTransGen (WriteStep ctx outputs) m m') : Aside m m' := by
  refine ⟨quietly_of_writes h, ?_⟩
  induction h with
  | refl => rfl
  | tail _ hStep ih =>
      rw [← ih]
      cases hStep with
      | write hStorage' _ text =>
          obtain rfl : storage = _ := Option.some_inj.mp (hStorage.symm.trans hStorage')
          exact hSignal.write _ text _
      | append hStorage' _ text =>
          obtain rfl : storage = _ := Option.some_inj.mp (hStorage.symm.trans hStorage')
          exact hSignal.append _ text _
      | said => rfl

end Store

/-- What puts the signal up is a command and shows in the trace, and what is held back
from a machine with the signal down is held back after that. -/
def Shown (m : Machine σ) (_ : Option Raised) (m' : Machine σ) : Prop :=
  ∃ es, Since m m' es ∧
    (m'.isStopped = true → m.isStopped = true ∨ ∃ e ∈ es, e.leavesUp = true) ∧
    (m.isStopped = false → Warranted es)

theorem composes_shown : Composes (Shown (σ := σ)) where
  refl := fun m => ⟨[], Since.refl m, .inl, fun _ => warranted_of_not_mem (by simp)⟩
  trans := by
    rintro m m₁ m' e ⟨es, hSince, hRise, hWarranted⟩ ⟨fs, hSince', hRise', hWarranted'⟩
    refine ⟨es ++ fs, hSince.trans hSince', fun hUp => ?_, fun hDown => ?_⟩
    · rcases hRise' hUp with hUp₁ | ⟨e, hMem, hLeaves⟩
      · rcases hRise hUp₁ with hUp₀ | ⟨e, hMem, hLeaves⟩
        · exact .inl hUp₀
        · exact .inr ⟨e, List.mem_append_left fs hMem, hLeaves⟩
      · exact .inr ⟨e, List.mem_append_right es hMem, hLeaves⟩
    · -- the second part is warranted by itself, or by whoever put the signal up in the first
      refine (hWarranted hDown).append ?_
      cases hUp₁ : m₁.isStopped with
      | false => exact .inl (hWarranted' hUp₁)
      | true => exact .inr ((hRise hUp₁).resolve_left (by simp [hDown]))

theorem shown_of_aside {m m' : Machine σ} (h : Aside m m') (e : Option Raised) :
    Shown m e m' := by
  obtain ⟨⟨es, hSince, hQuiet⟩, hSame⟩ := h
  refine ⟨es, hSince, fun hUp => .inl ?_, fun _ => ?_⟩
  · rwa [isStopped_congr hSame] at hUp
  · exact warranted_of_not_mem (not_mem_of_isQuiet hQuiet)

theorem shown_called (registry : Registry (Command σ)) (ctx : Context σ) (c : Simple)
    (command : Command σ) (m : Machine σ) (e : Option Raised) :
    Shown m e (called registry ctx c command m) := by
  obtain ⟨notes, hSince⟩ := since_called registry ctx c command m
  refine ⟨_, hSince, fun hUp => .inr ⟨_, List.mem_append_right _ List.mem_cons_self, hUp⟩, ?_⟩
  exact fun _ => warranted_of_not_mem (by simp)

theorem shown_of_simpleRun {registry : Registry (Command σ)} {ctx : Context σ}
    {storage : Storage σ} (hStorage : ctx.storage = some storage) (hSignal : storage.LeavesSignal)
    {c : Simple} {m m' : Machine σ} {e : Option Raised} (h : SimpleRun registry ctx c m e m') :
    Shown m e m' := by
  have hC := composes_shown (σ := σ)
  cases h with
  | unstarted hReads => exact shown_of_aside (aside_of_reads hStorage hSignal hReads) _
  | met stdin hReads _ _ hWrites =>
      have hRead := shown_of_aside (aside_of_reads hStorage hSignal hReads) none
      have hWritten := shown_of_aside (aside_of_writes hStorage hSignal hWrites) none
      exact hC.trans hRead (hC.trans (shown_called _ _ _ _ _ _) hWritten)
  | letOut stdin hReads =>
      have hRead := shown_of_aside (aside_of_reads hStorage hSignal hReads) none
      exact hC.trans hRead (shown_called _ _ _ _ _ _)

theorem shown_of_treeRun {registry : Registry (Command σ)} {ctx : Context σ}
    {storage : Storage σ} (hStorage : ctx.storage = some storage) (hSignal : storage.LeavesSignal)
    {cs : List Simple} {m m' : Machine σ} {e : Option Raised}
    (h : TreeRun registry ctx cs m e m') : Shown m e m' := by
  refine h.lift composes_shown ?_ ?_ ?_
  · intro m hUp
    exact ⟨_, Since.log m _, fun _ => .inl hUp, fun hDown => by simp [hUp] at hDown⟩
  · exact fun m _ _ _ _ => shown_of_aside ⟨.log m rfl, rfl⟩ none
  · intro stdin c m m' e _ _ hRun
    refine shown_of_simpleRun ?_ hSignal hRun
    exact hStorage

/-- From a machine with the signal up, trees are started only to be held back. -/
def Stalled (m : Machine σ) (_ : Option Raised) (m' : Machine σ) : Prop :=
  m.isStopped = true → m'.isStopped = true ∧ ∃ es, Since m m' es ∧ HeldBack es

theorem composes_stalled : Composes (Stalled (σ := σ)) where
  refl := fun m hUp => ⟨hUp, [], Since.refl m, rfl⟩
  trans := by
    intro m m₁ m' e h h' hUp
    obtain ⟨hUp₁, es, hSince, hLoud⟩ := h hUp
    obtain ⟨hUp', fs, hSince', hLoud'⟩ := h' hUp₁
    refine ⟨hUp', es ++ fs, hSince.trans hSince', ?_⟩
    unfold HeldBack at *
    rw [loud_append, startedTrees_append, List.flatMap_append, hLoud, hLoud']

theorem stalled_of_aside {m m' : Machine σ} (h : Aside m m') (e : Option Raised) :
    Stalled m e m' := by
  intro hUp
  obtain ⟨⟨es, hSince, hQuiet⟩, hSame⟩ := h
  refine ⟨by rwa [isStopped_congr hSame], es, hSince, ?_⟩
  rw [HeldBack, loud_eq_nil hQuiet, startedTrees_eq_nil hQuiet]
  rfl

theorem Shown.warranted {m m' : Machine σ} {e : Option Raised} (h : Shown m e m')
    (hDown : m.isStopped = false) : Warranted (newEvents m m') := by
  obtain ⟨es, hSince, -, hWarranted⟩ := h
  rw [hSince.newEvents_eq]
  exact hWarranted hDown

theorem Stalled.heldBack {m m' : Machine σ} {e : Option Raised} (h : Stalled m e m')
    (hUp : m.isStopped = true) : HeldBack (newEvents m m') := by
  obtain ⟨-, es, hSince, hHeld⟩ := h hUp
  rwa [hSince.newEvents_eq]

/-- A signal that is up was put up by a command that the trace shows. -/
def Accounted (m : Machine σ) : Prop :=
  m.isStopped = true → ∃ e ∈ m.trace.toList, e.leavesUp = true

theorem Shown.accounted {m m' : Machine σ} {e : Option Raised} (h : Shown m e m')
    (hBefore : Accounted m) : Accounted m' := by
  intro hUp
  obtain ⟨es, hSince, hRise, -⟩ := h
  unfold Since at hSince
  rw [hSince]
  rcases hRise hUp with hUp₀ | ⟨e, hMem, hLeaves⟩
  · obtain ⟨e, hMem, hLeaves⟩ := hBefore hUp₀
    exact ⟨e, List.mem_append_left es hMem, hLeaves⟩
  · exact ⟨e, List.mem_append_right _ hMem, hLeaves⟩

end Runs

/-! ## Calls -/

namespace Session

variable {σ : Type} {shell : Shell σ}

/-- A law of trees that is also one of everything beside them. -/
structure SignalLaw (shell : Shell σ) (R : Machine σ → Option Raised → Machine σ → Prop) :
    Prop where
  composes : Composes R
  tree : ∀ {ctx : Context σ}, ctx.storage = some shell.storage →
    ∀ (tree : Tree) (m : Machine σ),
      R m (letsOut (run shell.registry ctx tree) (m.log (.started tree)))
        (endState (run shell.registry ctx tree) (m.log (.started tree)))
  aside : ∀ {m m' : Machine σ} (e : Option Raised), Aside m m' → R m e m'

namespace SignalLaw

variable {R : Machine σ → Option Raised → Machine σ → Prop} (hLaw : SignalLaw shell R)
  (hSignal : shell.storage.LeavesSignal)
include hLaw hSignal

theorem of_step {m m' : Machine σ} {e : Option Raised} (h : Step shell m e m') : R m e m' := by
  cases h with
  | tree hStorage tree => exact hLaw.tree hStorage tree m
  | look hIsDir path => exact hLaw.aside _ ⟨.after m _, hSignal.isDir _ path hIsDir m⟩
  | said hQuiet => exact hLaw.aside _ ⟨.log m hQuiet, rfl⟩

theorem of_profileStep {path : String} {m m' : Machine σ} {e : Option Raised}
    (h : ProfileStep shell path m e m') : R m e m' := by
  cases h with
  | call hStep => exact hLaw.of_step hSignal hStep
  | ask => exact hLaw.aside _ ⟨.after m _, hSignal.contains path m⟩
  | read => exact hLaw.aside _ ⟨.after m _, hSignal.read path m⟩

theorem runLines (lines : List String) (s : Session σ) :
    R s.machine (letsOut (Session.runLines shell lines) s)
      (endState (Session.runLines shell lines) s).machine :=
  (leads_runLines lines s).2.lift hLaw.composes (hLaw.of_step hSignal)

theorem apply (c : Changes) (s : Session σ) :
    R s.machine (letsOut (Session.apply shell c) s)
      (endState (Session.apply shell c) s).machine :=
  (leads_apply c s).2.lift hLaw.composes (hLaw.of_step hSignal)

theorem runProfile (s : Session σ) :
    R s.machine (letsOut (Session.runProfile shell) s)
      (endState (Session.runProfile shell) s).machine :=
  (leads_runProfile s).2.lift hLaw.composes (hLaw.of_profileStep hSignal)

/-- A line is not run, or it is run from a machine whose signal is renewed. -/
theorem evaluate (line : String) (s : Session σ) :
    (endState (Session.evaluate shell line) s).machine = s.machine ∨
      R s.renewed.machine (letsOut (Session.evaluate shell line) s)
        (endState (Session.evaluate shell line) s).machine := by
  have hLine : Leads (Evaluates shell) (Session.evaluate shell line) s := leads_evaluate line s
  rcases hLine with ⟨-, -, hSame⟩ | ⟨-, hTrail⟩
  · exact .inl hSame
  · exact .inr (hTrail.lift hLaw.composes (hLaw.of_step hSignal))

end SignalLaw

theorem signalLaw_shown (hSignal : shell.storage.LeavesSignal) : SignalLaw shell Shown where
  composes := composes_shown
  aside := fun e h => shown_of_aside h e
  tree := by
    intro ctx hStorage tree m
    have hRun := treeRun_run shell.registry ctx tree (m.log (.started tree))
    refine composes_shown.trans ?_ (shown_of_treeRun hStorage hSignal hRun)
    exact ⟨_, Since.log m _, .inl, fun _ => warranted_of_not_mem (by simp)⟩

theorem signalLaw_stalled (shell : Shell σ) : SignalLaw shell Stalled where
  composes := composes_stalled
  aside := fun e h => stalled_of_aside h e
  tree := by
    intro ctx _ tree m hUp
    have hRun := run_of_isStopped shell.registry ctx tree
      (show (m.log (.started tree)).isStopped = true from hUp)
    rw [endState, hRun]
    exact ⟨hUp, _, (Since.log m _).trans (Since.log _ _), rfl⟩

/-- The sessions that calls lead to, one after the other, however each of them ends. -/
inductive Reached (shell : Shell σ) : Session σ → Prop
  | start (env aliases : Table String String) (store : σ) : Reached shell (start env aliases store)
  | evaluate {s : Session σ} (h : Reached shell s) (line : String) :
      Reached shell (endState (evaluate shell line) s)
  | runProfile {s : Session σ} (h : Reached shell s) : Reached shell (endState (runProfile shell) s)
  | runLines {s : Session σ} (h : Reached shell s) (lines : List String) :
      Reached shell (endState (runLines shell lines) s)
  | apply {s : Session σ} (h : Reached shell s) (c : Changes) :
      Reached shell (endState (apply shell c) s)

/-- Between calls no file is being sourced. -/
theorem Reached.depth_eq_zero {s : Session σ} (h : Reached shell s) : s.depth = 0 := by
  induction h with
  | start => rfl
  | @evaluate s _ line ih =>
      have hLine : Leads (Evaluates shell) (Session.evaluate shell line) s := leads_evaluate line s
      rcases hLine with ⟨-, hDepth, -⟩ | ⟨hDepth, -⟩
      · exact hDepth.trans ih
      · exact hDepth.trans ((depth_renewed s).trans ih)
  | @runProfile s _ ih => exact (leads_runProfile s).1.trans ih
  | @runLines s _ lines ih => exact (leads_runLines lines s).1.trans ih
  | @apply s _ c ih => exact (leads_apply c s).1.trans ih

theorem not_isStopped_renewed {s : Session σ} (h : s.depth = 0) :
    s.renewed.machine.isStopped = false := by
  simp [renewed, h, Machine.isStopped]

theorem Reached.accounted (hSignal : shell.storage.LeavesSignal) {s : Session σ}
    (h : Reached shell s) : Accounted s.machine := by
  have hLaw := signalLaw_shown hSignal
  induction h with
  | start => exact fun hUp => by cases hUp
  -- the renewed signal is down, so it is the line that accounts for one that is up after it
  | @evaluate s hBefore line ih =>
      rcases hLaw.evaluate hSignal line s with hSame | hShown
      · rwa [hSame]
      · refine hShown.accounted fun hUp => ?_
        simp [not_isStopped_renewed hBefore.depth_eq_zero] at hUp
  | @runProfile s _ ih => exact (hLaw.runProfile hSignal s).accounted ih
  | @runLines s _ lines ih => exact (hLaw.runLines hSignal lines s).accounted ih
  | @apply s _ c ih => exact (hLaw.apply hSignal c s).accounted ih

/--
**A signal outlives its line.** A line that is evaluated holds nothing back unless one
of its own commands put the signal up. The lines of a file and the profile keep to that
if the signal is down when they start. But nothing renews the signal for them: if an
earlier call left it up, they call no command, and every tree that they start is held
back.
-/
theorem stale_signal (hSignal : shell.storage.LeavesSignal) {s : Session σ}
    (hReached : Reached shell s) :
    (∀ line, Warranted (eventsOf (evaluate shell line) s)) ∧
    (s.machine.isStopped = false →
      (∀ lines, Warranted (eventsOf (runLines shell lines) s)) ∧
        Warranted (eventsOf (runProfile shell) s)) ∧
    (s.machine.isStopped = true →
      (∃ e ∈ s.machine.trace.toList, e.leavesUp = true) ∧
        (∀ lines, HeldBack (eventsOf (runLines shell lines) s)) ∧
        HeldBack (eventsOf (runProfile shell) s)) := by
  have hShown := signalLaw_shown hSignal
  have hStalled := signalLaw_stalled shell
  refine ⟨fun line => ?_, fun hDown => ⟨fun lines => ?_, ?_⟩, fun hUp => ⟨?_, fun lines => ?_, ?_⟩⟩
  · have hDown := not_isStopped_renewed hReached.depth_eq_zero
    rcases hShown.evaluate hSignal line s with hSame | hRun
    · rw [eventsOf, hSame, (Since.refl s.machine).newEvents_eq]
      exact warranted_of_not_mem (by simp)
    · rw [eventsOf, newEvents, ← trace_renewed]
      exact hRun.warranted hDown
  · exact (hShown.runLines hSignal lines s).warranted hDown
  · exact (hShown.runProfile hSignal s).warranted hDown
  · exact hReached.accounted hSignal hUp
  · exact (hStalled.runLines hSignal lines s).heldBack hUp
  · exact (hStalled.runProfile hSignal s).heldBack hUp

theorem leavesSignal_ask {α : Type} (question : FileTree → Except Fault α) :
    LeavesSignal (Storage.ask question) := by
  intro m
  unfold Machine.after endState Storage.ask
  cases question m.host.store <;> rfl

theorem leavesSignal_change (act : FileTree → Except Fault FileTree) (note : Note) :
    LeavesSignal (Storage.change act note) := by
  intro m
  unfold Machine.after endState Storage.change
  cases act m.host.store <;> rfl

theorem leavesSignal_memory : Storage.memory.LeavesSignal where
  read := fun path => leavesSignal_ask (·.read path)
  write := fun path text => leavesSignal_change (·.write path text) _
  append := fun path text => leavesSignal_change (·.append path text) _
  contains := fun path => leavesSignal_ask fun t => .ok (t.contains path)
  isDir := by
    rintro isDir path ⟨⟩
    exact leavesSignal_ask fun t => .ok (t.isDir path)

/-- A session after a line whose only command put the signal up. -/
def stopped : Session FileTree :=
  endState (runTrees (runLinesIn stoppable maxDepth) stoppable [.simple ⟨"stop", [], []⟩] {})
    (start ∅ ∅ (ownStore ∅)).renewed

theorem reached_stopped : Reached stoppable stopped := by
  have hLine : evaluate stoppable "stop" (start ∅ ∅ (ownStore ∅)) =
      runTrees (runLinesIn stoppable maxDepth) stoppable [.simple ⟨"stop", [], []⟩] {}
        (start ∅ ∅ (ownStore ∅)).renewed :=
    evaluateWith_of_parse _ _ (by decide +kernel) (parse_of_isEmpty rfl rfl rfl rfl)
  have hEnd : endState (evaluate stoppable "stop") (start ∅ ∅ (ownStore ∅)) = stopped := by
    simp only [endState, hLine, stopped]
  rw [← hEnd]
  exact .evaluate (.start ∅ ∅ (ownStore ∅)) "stop"

/-- The session after a file with the one line `echo hi` was run in `stopped`. -/
def stoppedAgain : Session FileTree :=
  endState (runTrees (runLinesIn stoppable 15) stoppable [.simple ⟨"echo", ["hi"], []⟩] {})
    stopped.deeper

theorem runLines_stopped :
    runLines stoppable ["echo hi"] stopped = .ok ⟨"", "interrupted\n", 130⟩
      { stoppedAgain with depth := stoppedAgain.depth - 1 } := by
  have hParse : stopped.deeper.parse "echo hi" = .ok [.simple ⟨"echo", ["hi"], []⟩] :=
    parse_of_isEmpty rfl rfl rfl rfl
  have hLine : evaluateWith (runLinesIn stoppable 15) stoppable "echo hi" stopped.deeper =
      .ok ⟨"", "interrupted\n", 130⟩ stoppedAgain :=
    (evaluateWith_of_parse _ _ (by decide +kernel) hParse).trans rfl
  exact nested_ok (runEach_singleton hLine {})

/-- The line is held back, although no command of the file put the signal up. -/
theorem stale_signal_stopped :
    stoppable.storage.LeavesSignal ∧ Reached stoppable stopped ∧
      stopped.machine.isStopped = true ∧
      answerOf (runLines stoppable ["echo hi"]) stopped = .ok ⟨"", "interrupted\n", 130⟩ ∧
      HeldBack (eventsOf (runLines stoppable ["echo hi"]) stopped) ∧
      ¬ Warranted (eventsOf (runLines stoppable ["echo hi"]) stopped) := by
  have hUp : stopped.machine.isStopped = true := by decide +kernel
  have hAnswer : answerOf (runLines stoppable ["echo hi"]) stopped =
      .ok ⟨"", "interrupted\n", 130⟩ := by
    simp only [answerOf, runLines_stopped]
  have hTrees : startedTrees (eventsOf (runLines stoppable ["echo hi"]) stopped) ≠ [] := by
    simp only [eventsOf, endState, runLines_stopped]
    decide +kernel
  obtain ⟨-, -, hStale⟩ := stale_signal leavesSignal_memory reached_stopped
  have hHeld := (hStale hUp).2.1 ["echo hi"]
  exact ⟨leavesSignal_memory, reached_stopped, hUp, hAnswer, hHeld, hHeld.not_warranted hTrees⟩

end Session

end MemShell
