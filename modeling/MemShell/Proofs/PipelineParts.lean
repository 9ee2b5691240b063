import MemShell.Proofs.AlikeRuns
import MemShell.Proofs.ChangeMonoid
import MemShell.Proofs.WrittenFiles

/-!
# A pipeline can be cut anywhere

A pipeline of five commands and a pipeline of its first two followed by one of the last
three are not the same run. The second starts its own count of changes, from nothing, and
its log numbers the stages anew. But what a stage sees is what the one before it handed
over, and at the cut that is what the first part printed, or nothing if it failed; so the
stages do the same. Only the changes are grouped differently.

There are thus two inductions. Up to the cut both runs hold the same outcome, and at the
cut one of them puts it aside and starts afresh (`endAlike_append`). From there on they
hold outcomes of the same texts and status, and the changes of the one list the same as
what was put aside, merged with the changes of the other (`Carries`): that is kept by
every stage because merging is associative on normal changes, and changes that are merged
onto nothing are normal (`endAlike_runStages`).

Nothing need be assumed about the signal. Where it is up before a stage of the first part,
the second part finds it up too, and is held back with no changes of its own.

## Main results

* `Carries.merge` — one more stage on both sides of the cut.
* `run_pipeline_append` — the whole and its parts end alike.
-/

namespace MemShell

/-! ## Changes on both sides of a cut -/

namespace Changes

/-- Changes that agree in all but the order in which names are listed for removal. -/
structure Reordered (a b : Changes) : Prop where
  same : a.Same b
  unsets : a.unsets.Perm b.unsets
  unaliases : a.unaliases.Perm b.unaliases

/-- The changes of the whole are those put aside at the cut and those made since. -/
structure Carries (aside whole since : Changes) : Prop where
  normal_aside : aside.Normal
  normal_whole : whole.Normal
  normal_since : since.Normal
  same : whole.Same (aside.merge since)

theorem Carries.atCut {aside : Changes} (h : aside.Normal) : Carries aside aside {} where
  normal_aside := h
  normal_whole := h
  normal_since := normal_empty
  same := by
    show aside.Same (aside.merge empty)
    rw [merge_empty]
    exact .refl aside

/-- **One more stage** on both sides of the cut. -/
theorem Carries.merge {aside whole since : Changes} (h : Carries aside whole since)
    (c : Changes) : Carries aside (whole.merge c) (since.merge c) where
  normal_aside := h.normal_aside
  normal_whole := h.normal_whole.merge c
  normal_since := h.normal_since.merge c
  same := (h.same.merge h.normal_whole (h.normal_aside.merge since) c).trans
    (merge_assoc h.normal_aside h.normal_since c)

theorem Carries.reordered {aside whole since : Changes} (h : Carries aside whole since) :
    whole.Reordered (aside.merge since) := by
  obtain ⟨hUnsets, hUnaliases⟩ := h.same.perm h.normal_whole (h.normal_aside.merge since)
  exact ⟨h.same, hUnsets, hUnaliases⟩

end Changes

open Changes

/-! ## Outcomes of a whole and of its parts -/

namespace Outcome

/-- The outcome of a pipeline, and those of its two parts: what is visible is that of the
second part, and the changes are those of both. -/
structure OfParts (whole : Outcome) (parts : Outcome × Outcome) : Prop where
  output : whole.output = parts.2.output
  changes : whole.changes.Reordered (parts.1.changes.merge parts.2.changes)

/-- After the cut, the outcomes so far of the whole and of the second part. -/
structure Continues (aside : Changes) (whole second : Outcome) : Prop where
  output : whole.output = second.output
  carries : Carries aside whole.changes second.changes

theorem Continues.ofParts {first whole second : Outcome}
    (h : Continues first.changes whole second) : OfParts whole (first, second) :=
  ⟨h.output, h.carries.reordered⟩

/-- Where the signal is up, both are interrupted. -/
theorem continues_interrupted {aside whole since : Changes} (h : Carries aside whole since) :
    Continues aside (interrupted whole) (interrupted since) :=
  ⟨rfl, h⟩

end Outcome

/-! ## Running the parts -/

namespace Execute

open Outcome

variable {σ : Type}

/-- Runs the second part of a pipeline after the first. -/
def runSecond (registry : Registry (Command σ)) (ctx : Context σ) (stages : List Simple)
    (first : Outcome) : MachineM Raised σ (Outcome × Outcome) := do
  let stdin := if first.status = 0 then first.stdout else ""
  let second ← run registry { ctx with stdin } (.pipeline stages)
  return (first, second)

/-- Runs two pipelines, where the second sees what the first printed unless it failed. -/
def runParts (registry : Registry (Command σ)) (ctx : Context σ) (before after : List Simple) :
    MachineM Raised σ (Outcome × Outcome) := do
  let first ← run registry ctx (.pipeline before)
  runSecond registry ctx after first

theorem handOver_eq (o : Outcome) : handOver o = if o.status = 0 then o.stdout else "" := by
  simp [handOver, Outcome.ok]

/-- Says the number of a stage, unless it is the last. -/
def sayStage (index total : Nat) (stage : Simple) (rest : List Simple) (result : Outcome) :
    MachineM Raised σ Unit :=
  if rest.isEmpty then return else emit (.stageEnded index total stage.command result.status)

theorem endAlike_sayStage {m n : Machine σ} (h : m.Alike n) (index total index' total' : Nat)
    (stage : Simple) (rest rest' : List Simple) (result : Outcome) :
    EndAlike (fun _ _ => True) (sayStage index total stage rest result m)
      (sayStage index' total' stage rest' result n) := by
  unfold sayStage
  cases rest.isEmpty <;> cases rest'.isEmpty
  · exact .returned trivial ((h.log_left rfl).log_right rfl)
  · exact .returned trivial (h.log_left rfl)
  · exact .returned trivial (h.log_right rfl)
  · exact .returned trivial h

section Stages

variable {registry : Registry (Command σ)} {ctx : Context σ} {m n : Machine σ}

/-- With the signal down, a stage runs and the others follow. -/
theorem runStages_cons_of_not_isStopped (hDown : m.isStopped = false) (total index : Nat)
    (stage : Simple) (rest : List Simple) (stdin : String) (last : Outcome) :
    runStages registry ctx total index (stage :: rest) stdin last m = (do
      let result ← runSimple registry { ctx with stdin } stage
      sayStage index total stage rest result
      runStages registry ctx total (index + 1) rest (handOver result)
        { result with changes := last.changes.merge result.changes }) m := by
  rw [runStages, unlessStopped_of_not_isStopped hDown]
  refine bind_congr_of_ok rfl fun result m₁ _ => ?_
  unfold sayStage
  cases rest.isEmpty <;> rfl

theorem runStages_of_isStopped (hUp : m.isStopped = true) {stages : List Simple}
    (hSome : stages ≠ []) (total index : Nat) (stdin : String) (last : Outcome) :
    runStages registry ctx total index stages stdin last m =
      .ok (.interrupted last.changes) (m.log .interrupted) := by
  cases stages with
  | nil => exact absurd rfl hSome
  | cons stage rest => rw [runStages, unlessStopped, if_pos hUp]

/-- Each stage gets its input from the one before. -/
theorem runStages_stdin (input : String) (total : Nat) (stages : List Simple) :
    ∀ (index : Nat) (stdin : String) (last : Outcome),
      runStages registry { ctx with stdin := input } total index stages stdin last =
        runStages registry ctx total index stages stdin last := by
  induction stages with
  | nil => exact fun index stdin last => rfl
  | cons stage rest ih =>
      intro index stdin last
      simp only [runStages, ih]

/-- **After the cut.** The induction is on the stages that are left; before the first of
them, what the two runs hold need agree in the changes only. -/
theorem endAlike_runStages {aside : Changes} (total total' : Nat) (stages : List Simple) :
    ∀ {index index' : Nat} (stdin : String) {whole second : Outcome} {m n : Machine σ},
      m.Alike n → Carries aside whole.changes second.changes →
      (stages = [] → whole.output = second.output) →
      EndAlike (Continues aside) (runStages registry ctx total index stages stdin whole m)
        (runStages registry ctx total' index' stages stdin second n) := by
  induction stages with
  | nil =>
      intro index index' stdin whole second m n hAlike hCarries hOutput
      exact .returned ⟨hOutput rfl, hCarries⟩ hAlike
  | cons stage rest ih =>
      intro index index' stdin whole second m n hAlike hCarries _
      cases hStopped : m.isStopped with
      | true =>
          have hStopped' : n.isStopped = true := hAlike.isStopped ▸ hStopped
          rw [runStages_of_isStopped hStopped (List.cons_ne_nil _ _),
            runStages_of_isStopped hStopped' (List.cons_ne_nil _ _)]
          exact .returned ⟨rfl, hCarries⟩ (hAlike.log .interrupted)
      | false =>
          have hStopped' : n.isStopped = false := hAlike.isStopped ▸ hStopped
          rw [runStages_cons_of_not_isStopped hStopped, runStages_cons_of_not_isStopped hStopped']
          refine (steady_runSimple registry _ stage m n hAlike).bind ?_
          rintro result _ m₁ n₁ rfl hAlike₁
          refine (endAlike_sayStage hAlike₁ _ _ _ _ _ _ _ _).bind fun _ hAlike₂ => ?_
          exact ih _ hAlike₂ (hCarries.merge result.changes) fun _ => rfl

/-- The second part, from a machine with the signal up. -/
theorem runSecond_of_isStopped (hUp : m.isStopped = true) (stages : List Simple)
    (first : Outcome) :
    runSecond registry ctx stages first m =
      .ok (first, .interrupted {}) (m.log .interrupted) :=
  bind_of_ok (run_of_isStopped registry _ _ hUp)

theorem run_pipeline_of_not_isStopped (hDown : m.isStopped = false) (stages : List Simple)
    (stdin : String) :
    run registry { ctx with stdin } (.pipeline stages) m =
      runStages registry ctx stages.length 1 stages stdin {} m := by
  rw [run, unlessStopped_of_not_isStopped hDown, runStages_stdin]

/-- **At the cut**, one run goes on and the other starts afresh. -/
theorem endAlike_runSecond {after : List Simple} (hSome : after ≠ []) (total index : Nat)
    {first : Outcome} (hNormal : first.changes.Normal) (hAlike : m.Alike n) :
    EndAlike OfParts (runStages registry ctx total index after (handOver first) first m)
      (runSecond registry ctx after first n) := by
  have hCut : Carries first.changes first.changes (changes {}) := .atCut hNormal
  cases hStopped : m.isStopped with
  | true =>
      have hStopped' : n.isStopped = true := hAlike.isStopped ▸ hStopped
      rw [runStages_of_isStopped hStopped hSome, runSecond_of_isStopped hStopped']
      exact .returned (continues_interrupted hCut).ofParts (hAlike.log .interrupted)
  | false =>
      have hStopped' : n.isStopped = false := hAlike.isStopped ▸ hStopped
      refine EndAlike.bind_pure_right ?_ _ Continues.ofParts
      rw [run_pipeline_of_not_isStopped hStopped', ← handOver_eq]
      exact endAlike_runStages total after.length after _ hAlike hCut fun hNil => absurd hNil hSome

/-- **Up to the cut** both runs hold the same. The induction is on the stages before it. -/
theorem endAlike_append {after : List Simple} (hSome : after ≠ []) (total total' : Nat)
    (before : List Simple) :
    ∀ {index index' : Nat} {stdin : String} {last : Outcome} {m n : Machine σ},
      m.Alike n → last.changes.Normal → (before = [] → stdin = handOver last) →
      EndAlike OfParts (runStages registry ctx total index (before ++ after) stdin last m)
        ((runStages registry ctx total' index' before stdin last >>= runSecond registry ctx after)
          n) := by
  induction before with
  | nil =>
      intro index index' stdin last m n hAlike hNormal hStdin
      rw [hStdin rfl]
      exact endAlike_runSecond hSome total index hNormal hAlike
  | cons stage rest ih =>
      intro index index' stdin last m n hAlike hNormal _
      cases hStopped : m.isStopped with
      | true =>
          have hStopped' : n.isStopped = true := hAlike.isStopped ▸ hStopped
          have hStill : (n.log .interrupted).isStopped = true := hStopped'
          rw [runStages_of_isStopped hStopped (by simp),
            bind_of_ok (runStages_of_isStopped hStopped' (List.cons_ne_nil _ _) _ _ _ _),
            runSecond_of_isStopped hStill]
          have hHeld : Continues (changes (interrupted last.changes)) (interrupted last.changes)
              (interrupted {}) := continues_interrupted (.atCut hNormal)
          exact .returned hHeld.ofParts ((hAlike.log .interrupted).log_right rfl)
      | false =>
          have hStopped' : n.isStopped = false := hAlike.isStopped ▸ hStopped
          rw [List.cons_append, runStages_cons_of_not_isStopped hStopped,
            bind_congr_of_ok (runStages_cons_of_not_isStopped hStopped' _ _ _ _ _ _)
              fun _ _ _ => rfl, bind_assoc]
          refine (steady_runSimple registry _ stage m n hAlike).bind ?_
          rintro result _ m₁ n₁ rfl hAlike₁
          rw [bind_assoc]
          refine (endAlike_sayStage hAlike₁ _ _ _ _ _ _ _ _).bind fun _ hAlike₂ => ?_
          exact ih hAlike₂ (hNormal.merge result.changes) fun _ => rfl

end Stages

/--
**A pipeline can be cut anywhere.** For all commands, contexts and stores, and whatever the
signal does, running a pipeline ends alike with running its first stages as a pipeline, and
then the others as a pipeline that sees what the first part printed, or nothing if that
failed. Both give the texts and the status of the second part or let the same thing out, the
same was done and the store is the same. The changes are those of the two parts merged, up
to the order in which names are listed for removal.
-/
theorem run_pipeline_append {before after : List Simple} (hBefore : before ≠ [])
    (hAfter : after ≠ []) (registry : Registry (Command σ)) (ctx : Context σ) (m : Machine σ) :
    EndAlike OfParts (run registry ctx (.pipeline (before ++ after)) m)
      (runParts registry ctx before after m) := by
  cases hStopped : m.isStopped with
  | true =>
      have hStill : (m.log .interrupted).isStopped = true := hStopped
      rw [run_of_isStopped _ _ _ hStopped, runParts,
        bind_of_ok (run_of_isStopped registry ctx _ hStopped), runSecond_of_isStopped hStill]
      have hHeld : Continues (changes (interrupted {})) (interrupted {}) (interrupted {}) :=
        continues_interrupted (.atCut normal_empty)
      exact .returned hHeld.ofParts ((Machine.Alike.refl _).log_right rfl)
  | false =>
      rw [run_pipeline_of_not_isStopped hStopped, runParts,
        bind_congr_of_ok (run_pipeline_of_not_isStopped hStopped _ _) fun _ _ _ => rfl]
      exact endAlike_append hAfter _ _ before (.refl m) normal_empty fun hNil => absurd hNil hBefore

/-- The stages of `unset A B | echo "one two"`. -/
def tellingStages : List Simple :=
  [⟨"unset", ["A", "B"], []⟩, ⟨"echo", ["one two"], []⟩]

/-- The stages of `cat >> note | export A=1 | unset A`. -/
def notingStages : List Simple :=
  [⟨"cat", [], [⟨.append, "note"⟩]⟩, ⟨"export", ["A=1"], []⟩, ⟨"unset", ["A"], []⟩]

/-- What the first part prints goes into the file, and the parts list the variables in
another order than the whole. -/
theorem run_pipeline_append_noting :
    let whole := run Builtin.registry noteContext (.pipeline (tellingStages ++ notingStages))
    let parts := runParts Builtin.registry noteContext tellingStages notingStages
    tellingStages ≠ [] ∧ notingStages ≠ [] ∧
      EndAlike OfParts (whole noteMachine) (parts noteMachine) ∧
      (endState whole noteMachine).store.files.get? (.ofText "/tmp/note") =
        some "keptone two\n" ∧
      (answerOf whole noteMachine).toOption.map (fun o => o.changes.unsets) = some ["B", "A"] ∧
      (answerOf parts noteMachine).toOption.map (fun p => (p.1.changes.merge p.2.changes).unsets) =
        some ["A", "B"] := by
  intro whole parts
  have hTelling : tellingStages ≠ [] := by decide
  have hNoting : notingStages ≠ [] := by decide
  refine ⟨hTelling, hNoting, run_pipeline_append hTelling hNoting _ _ _, ?_⟩
  decide +kernel

end Execute

end MemShell
