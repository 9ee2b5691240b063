import MemShell.Proofs.GatheredChanges
import MemShell.Proofs.WrittenFiles

/-!
# What commands and trees ask for

A command asks for changes in its outcome, and only if it ends with one. The changes of a tree
are merged from those of its commands that ended, whatever else happened: a signal, a file that
cannot be read, a chain that was cut short. A property of changes that every command of a shell
keeps to, and that merging keeps, is therefore one of all that trees ask for (`asked_of_run`).
The trace is what connects the two, since it has the changes of every command that ended
(`asked_of_treeRun`).

## Main results

* `asked_of_treeRun` — the changes in the trace of a tree.
* `asked_of_run` — what the commands of a shell ask for, its trees ask for.
-/

namespace MemShell

open Execute
open Relation (ReflTransGen)

variable {σ : Type}

/-! ## Answers -/

theorem answerOf_bind_of_ok {ε S α β : Type} {action : EStateM ε S α} {next : α → EStateM ε S β}
    {a : α} {s t : S} (hRun : action s = .ok a t) :
    answerOf (action >>= next) s = answerOf (next a) t := by
  simp only [answerOf, bind_of_ok hRun]

/-- A command on the host answers as its action does, and lets its fault out. -/
theorem answerOf_ofHost_eq (f : Call σ → HostM Fault σ Outcome) (call : Call σ) (host : Host σ) :
    answerOf (Command.ofHost f call) host =
      ((answerOf (f call) host).map some).mapError .fault := by
  show answerOf (some <$> raising (f call)) host = _
  cases hRun : f call host with
  | ok o host' =>
      have hRaising : raising (f call) host = .ok o host' := by simp only [raising, hRun]
      have hMap : (some <$> raising (f call)) host = .ok (some o) host' := bind_of_ok hRaising
      rw [answerOf, hMap, answerOf, hRun]
      rfl
  | error fault host' =>
      have hRaising : raising (f call) host = .error (.fault fault) host' := by
        simp only [raising, hRun]
      have hMap : (some <$> raising (f call)) host = .error (.fault fault) host' :=
        bind_of_error hRaising
      rw [answerOf, hMap, answerOf, hRun]
      rfl

theorem answerOf_ofHost {f : Call σ → HostM Fault σ Outcome}
    {call : Call σ} {host : Host σ} {o : Outcome}
    (h : answerOf (Command.ofHost f call) host = .ok (some o)) :
    answerOf (f call) host = .ok o := by
  rw [answerOf_ofHost_eq] at h
  cases hAnswer : answerOf (f call) host with
  | ok o' =>
      rw [hAnswer] at h
      cases h
      rfl
  | error fault =>
      rw [hAnswer] at h
      cases h

/-! ## What commands ask for -/

/-- However it ends, an action asks only for changes of this kind. -/
def Asks (P : Changes → Prop) (action : HostM Fault σ Outcome) : Prop :=
  ∀ h o, answerOf action h = .ok o → P o.changes

/-- A command that asks only for changes of this kind. -/
def Command.Asks (P : Changes → Prop) (command : Command σ) : Prop :=
  ∀ call host o, answerOf (command call) host = .ok (some o) → P o.changes

section Commands

variable {P : Changes → Prop} {α : Type}

namespace Asks

theorem pure {o : Outcome} (h : P o.changes) : Asks P (Pure.pure o : HostM Fault σ Outcome) := by
  intro host o' hAnswer
  obtain rfl : o = o' := Except.ok.inj hAnswer
  exact h

theorem throw (f : Fault) : Asks P (MonadExcept.throw f : HostM Fault σ Outcome) := by
  intro host o hAnswer
  cases hAnswer

theorem bind {action : HostM Fault σ α} {next : α → HostM Fault σ Outcome}
    (h : ∀ a, Asks P (next a)) : Asks P (action >>= next) := by
  intro host o hAnswer
  cases hRun : action host with
  | ok a host' =>
      rw [answerOf_bind_of_ok hRun] at hAnswer
      exact h a host' o hAnswer
  | error f host' =>
      rw [answerOf, bind_of_error hRun] at hAnswer
      cases hAnswer

end Asks

theorem Command.Asks.of_pure {f : Call σ → Outcome} (h : ∀ call, P (f call).changes) :
    Command.Asks P (.pure f) := by
  intro call host o hAnswer
  obtain rfl : f call = o := Option.some.inj (Except.ok.inj hAnswer)
  exact h call

theorem Command.Asks.of_host {f : Call σ → HostM Fault σ Outcome}
    (h : ∀ call, MemShell.Asks P (f call)) : Command.Asks P (.ofHost f) :=
  fun call host o hAnswer => h call host o (answerOf_ofHost hAnswer)

end Commands

/-! ## What trees ask for -/

/-- The changes of a command that has ended are of this kind. -/
def Event.Asked (P : Changes → Prop) (e : Event) : Prop :=
  ∀ c, e.changes? = some c → P c

section Runs

variable {P : Changes → Prop} {registry : Registry (Command σ)} {ctx : Context σ}
  {m m' : Machine σ}

theorem asked_of_changes?_eq_none {e : Event} (h : e.changes? = none) : e.Asked P := by
  intro c hc
  rw [h] at hc
  cases hc

/-- A command that asks for such changes here adds no others to the trace. -/
theorem asked_called {c : Simple} {command : Command σ}
    (hAsks : ∀ o, answerOf (call registry ctx c command) m.host = .ok (some o) → P o.changes) :
    Adds (Event.Asked P) m (called registry ctx c command m) := by
  have hEnded : Event.Asked P
      (.ended c.command (.ofAnswer (answerOf (call registry ctx c command) m.host))
        (called registry ctx c command m).isStopped) := by
    intro d hd
    match hAnswer : answerOf (call registry ctx c command) m.host with
    | .ok (some o) =>
        rw [hAnswer] at hd
        obtain rfl : o.changes = d := Option.some.inj hd
        exact hAsks o hAnswer
    | .ok none =>
        rw [hAnswer] at hd
        cases hd
    | .error e =>
        rw [hAnswer] at hd
        cases hd
  have hLast := Adds.log ((m.log (.dispatched c.command c.args ctx.toView)).after
    (call registry ctx c command)) hEnded
  have hStart : Adds (Event.Asked P) m (m.log (.dispatched c.command c.args ctx.toView)) :=
    .log m (asked_of_changes?_eq_none rfl)
  exact (hStart.trans (.after (fun _ => asked_of_changes?_eq_none rfl) _ _)).trans hLast

theorem asked_of_simpleRun (hHolds : registry.Holds (Command.Asks P)) {c : Simple}
    {e : Option Raised} (h : SimpleRun registry ctx c m e m') : Adds (Event.Asked P) m m' := by
  have hReading : ∀ {m₁ : Machine σ}, ReflTransGen (ReadStep ctx) m m₁ →
      Adds (Event.Asked P) m m₁ :=
    adds_of_reads (fun _ => asked_of_changes?_eq_none rfl)
      fun _ _ => asked_of_changes?_eq_none rfl
  have hCalling : ∀ (stdin : String) {command : Command σ} {m₁ : Machine σ},
      ReflTransGen (ReadStep ctx) m m₁ → registry.resolve ctx.env c.command = some command →
      Adds (Event.Asked P) m (called registry { ctx with stdin } c command m₁) :=
    fun stdin _ m₁ hReads hResolve =>
      (hReading hReads).trans (asked_called fun o => hHolds.of_resolve hResolve _ m₁.host o)
  cases h with
  | unstarted hReads => exact hReading hReads
  | letOut stdin hReads hResolve => exact hCalling stdin hReads hResolve
  | met stdin hReads hResolve _ hWrites =>
      refine (hCalling stdin hReads hResolve).trans ?_
      exact adds_of_writes (fun _ => asked_of_changes?_eq_none rfl)
        (fun _ _ _ => asked_of_changes?_eq_none rfl) hWrites

theorem composes_adds (Q : Event → Prop) :
    Composes fun (m : Machine σ) (_ : Option Raised) m' => Adds Q m m' where
  refl := .refl
  trans := .trans

theorem asked_of_treeRun (hHolds : registry.Holds (Command.Asks P)) {cs : List Simple}
    {e : Option Raised} (h : TreeRun registry ctx cs m e m') : Adds (Event.Asked P) m m' :=
  h.lift (composes_adds _) (fun m _ => .log m (asked_of_changes?_eq_none rfl))
    (fun m _ _ _ _ => .log m (asked_of_changes?_eq_none rfl))
    fun _ _ hRun => asked_of_simpleRun hHolds hRun

theorem asked_of_gathered (hNothing : P {}) (hMerge : ∀ a b, P a → P b → P (a.merge b))
    {cs : List Changes} {c : Changes} (h : Gathered cs c) : (∀ d ∈ cs, P d) → P c := by
  induction h with
  | nothing => exact fun _ => hNothing
  | single c => exact fun hAll => hAll c List.mem_cons_self
  | merge _ _ ihFirst ihSecond =>
      intro hAll
      rw [List.forall_mem_append] at hAll
      exact hMerge _ _ (ihFirst hAll.1) (ihSecond hAll.2)

/-- A tree asks for what its trace says that its commands asked for. -/
theorem asked_of_added (hNothing : P {}) (hMerge : ∀ a b, P a → P b → P (a.merge b)) {tree : Tree}
    {o : Outcome} (hAdds : Adds (Event.Asked P) m m') (h : run registry ctx tree m = .ok o m') :
    P o.changes := by
  obtain ⟨es, hSince, hAll⟩ := hAdds
  obtain ⟨cs, ⟨fs, hTrace, rfl⟩, hGathered⟩ := gathered_run tree h
  -- the events of the run are the same, told by either
  obtain rfl : es = fs := List.append_cancel_left (hSince.symm.trans hTrace)
  refine asked_of_gathered hNothing hMerge hGathered fun c hc => ?_
  obtain ⟨e, he, hChanges⟩ := List.mem_filterMap.mp hc
  exact hAll e he c hChanges

/-- **What the commands of a shell ask for, its trees ask for**, if merging changes of the kind
gives changes of the kind. -/
theorem asked_of_run (hHolds : registry.Holds (Command.Asks P)) (hNothing : P {})
    (hMerge : ∀ a b, P a → P b → P (a.merge b)) {tree : Tree} {o : Outcome}
    (h : run registry ctx tree m = .ok o m') : P o.changes :=
  asked_of_added hNothing hMerge
    (asked_of_treeRun hHolds ((treeRun_run registry ctx tree m).of_ok h)) h

end Runs

end MemShell
