import Mathlib.Data.List.Chain
import MemShell.Proofs.SessionSteps

/-!
# Every line ends

A file may source itself, or rewrite the files that it sources, so nothing in the files
bounds how long a line runs. What bounds it is the depth that the session counts: lines
are refused where the depth has reached its limit. The functions of a session recurse on
the room that is left, which hides that check. Here it is brought back. The calls obey
the equations in which the depth of the session decides (`runLines_eq`, `apply_eq`,
`evaluate_eq`), and these equations can be unfolded only so often: whatever a call of
more than that many files within each other would do, the result is the same
(`counted_eq`), so there is no such call. Each level is a loop over the lines of one
file and the trees of one line, so every line ends.

The counter is right at the end of a call because it is right all the way. A call passes
through moments, from tick to tick, and the depth at each of them lies between the depth
at the start and the limit.

## Main results

* `runLines_eq`, `apply_eq`, `evaluate_eq` — the calls as the depth decides them.
* `counted_eq` — the recursion does not go deeper than the room that is left.
* `evaluate_ends` — a line ends, and the depth is kept.
-/

namespace MemShell.Session

open Relation (ReflTransGen)

variable {σ α β : Type}

/-! ## The same parts have the same result -/

theorem nested_congr {action action' : SessionM σ α} {s : Session σ}
    (h : action s.deeper = action' s.deeper) : nested action s = nested action' s := by
  unfold nested
  rw [h]

/-- Lines are run by the sourcing of the shell, at any depth within the call. -/
theorem passes_runLines_from {shell : Shell σ} {origin s : Session σ}
    (hOrigin : origin.depth ≤ s.depth) (hStays : Staying origin s) (lines : List String) :
    Leads (Passing shell origin) (runLines shell lines) s :=
  (passes_runLinesIn s.room lines s rfl hOrigin hStays).congr rfl

section Congruence

variable {shell : Shell σ} {sourcing : List String → SessionM σ Output} {depth : Nat}
  (hSame : ∀ (lines : List String) (s : Session σ), s.depth = depth →
    sourcing lines s = runLines shell lines s)
include hSame

theorem applyWith_congr (c : Changes) {s : Session σ} (hDepth : s.depth = depth) :
    applyWith sourcing shell c s = applyWith (runLines shell) shell c s := by
  unfold applyWith
  refine bind_congr_of_ok rfl fun _ s₁ hChanged => ?_
  cases hChanged
  refine bind_congr_of_ok rfl fun _ s₂ hMoved => ?_
  obtain ⟨env, m, rfl⟩ := ((passes_changeDir c.chdir id).of_ok hMoved).1
  refine bind_congr_of_ok rfl fun _ s₃ hSaid => ?_
  cases hSaid
  cases c.sourceLines.isEmpty with
  | true => rfl
  | false =>
      refine bind_congr_of_ok ?_ fun _ _ _ => rfl
      exact bind_congr_of_ok (hSame c.sourceLines _ hDepth) fun _ _ _ => rfl

theorem runTree_congr (tree : Tree) {s : Session σ} (hDepth : s.depth = depth) :
    runTree sourcing shell tree s = runTree (runLines shell) shell tree s := by
  unfold runTree
  refine bind_congr_of_ok rfl fun _ s₁ hSaid => ?_
  cases hSaid
  refine bind_congr_of_ok rfl fun _ s₂ hGot => ?_
  cases hGot
  refine bind_congr_of_ok rfl fun result s₃ hRun => ?_
  obtain ⟨m, -, rfl⟩ := exists_of_onMachine_eq_ok hRun
  refine bind_congr_of_ok rfl fun _ s₄ hRecorded => ?_
  cases hRecorded
  cases result.changes.isEmpty with
  | true => rfl
  | false => exact bind_congr_of_ok (applyWith_congr hSame result.changes hDepth) fun _ _ _ => rfl

theorem runTrees_congr (trees : List Tree) :
    ∀ (before : Output) (s : Session σ), s.depth = depth →
      runTrees sourcing shell trees before s = runTrees (runLines shell) shell trees before s := by
  induction trees with
  | nil => exact fun _ _ _ => rfl
  | cons tree trees ih =>
      intro before s hDepth
      have hFirst := runTree_congr hSame tree hDepth
      have hTree : Leads (Passing shell s) (runTree (runLines shell) shell tree) s :=
        passes_runTree (fun lines t hSameDepth hStays =>
          passes_runLines_from (Nat.le_of_eq hSameDepth.symm) hStays lines) tree rfl id
      cases hRun : runTree (runLines shell) shell tree s with
      | error e t =>
          rw [runTrees_cons_of_error hRun, runTrees_cons_of_error (hFirst.trans hRun)]
      | ok output s₁ =>
          rw [runTrees_cons_of_ok hRun, runTrees_cons_of_ok (hFirst.trans hRun),
            ih _ s₁ ((hTree.of_ok hRun).depth_eq.trans hDepth)]

/-- Only the lines that are run at the depth of the session matter. -/
theorem evaluateWith_congr (line : String) {s : Session σ} (hDepth : s.depth = depth) :
    evaluateWith sourcing shell line s = evaluateWith (runLines shell) shell line s := by
  cases hHas : Builtin.hasCommand line with
  | false => rw [evaluateWith_of_blank _ shell hHas, evaluateWith_of_blank _ shell hHas]
  | true =>
      cases hParse : s.parse line with
      | error e =>
          rw [evaluateWith_of_error _ shell hHas hParse, evaluateWith_of_error _ shell hHas hParse]
      | ok trees =>
          rw [evaluateWith_of_parse _ shell hHas hParse, evaluateWith_of_parse _ shell hHas hParse]
          exact runTrees_congr hSame trees _ s.renewed (s.depth_renewed.trans hDepth)

end Congruence

/-! ## The calls as the depth decides them -/

section Equations

variable (shell : Shell σ)

/-- What is said of lines that are not run. -/
def refusal : Output :=
  { stderr := "source: maximum nesting depth exceeded\n", status := 1 }

theorem runLinesIn_room (s : Session σ) (lines : List String) (t : Session σ)
    (hDepth : t.depth = s.depth) :
    runLinesIn shell s.room lines t = runLines shell lines t := by
  unfold runLines Session.room
  rw [hDepth]

theorem apply_eq (c : Changes) (s : Session σ) :
    apply shell c s = applyWith (runLines shell) shell c s :=
  applyWith_congr (runLinesIn_room shell s) c rfl

theorem evaluate_eq (line : String) (s : Session σ) :
    evaluate shell line s = evaluateWith (runLines shell) shell line s :=
  evaluateWith_congr (runLinesIn_room shell s) line rfl

/-- Lines are refused at the limit, and the session is left as it is. -/
theorem runLines_of_full {s : Session σ} (hFull : maxDepth ≤ s.depth) (lines : List String) :
    runLines shell lines s = .ok refusal s := by
  have hRoom : s.room = 0 := Nat.sub_eq_zero_of_le hFull
  unfold runLines
  rw [hRoom]
  rfl

theorem Opening.depth_eq {shell : Shell σ} {origin s t : Session σ} {e : Option Raised}
    (h : Opening shell origin s e t) : t.depth = s.depth := by
  rcases h with ⟨-, rfl | rfl⟩ | h
  · rfl
  · rfl
  · exact h.depth_eq.trans s.depth_renewed

theorem runEach_congr {shell : Shell σ} {evaluate' : String → SessionM σ Output} {depth : Nat}
    (hSame : ∀ (line : String) (s : Session σ), s.depth = depth →
      evaluate' line s = evaluate shell line s) (lines : List String) :
    ∀ (before : Output) (s : Session σ), s.depth = depth →
      runEach evaluate' lines before s = runEach (evaluate shell) lines before s := by
  induction lines with
  | nil => exact fun _ _ _ => rfl
  | cons line lines ih =>
      intro before s hDepth
      cases hRun : evaluate shell line s with
      | error e t =>
          rw [runEach_cons_of_error hRun, runEach_cons_of_error ((hSame line s hDepth).trans hRun)]
      | ok output s₁ =>
          rw [runEach_cons_of_ok hRun, runEach_cons_of_ok ((hSame line s hDepth).trans hRun),
            ih _ s₁ (((passes_evaluate line s).of_ok hRun).depth_eq.trans hDepth)]

theorem runLines_eq (lines : List String) (s : Session σ) :
    runLines shell lines s =
      if maxDepth ≤ s.depth then .ok refusal s
      else nested (runEach (evaluate shell) lines {}) s := by
  by_cases hFull : maxDepth ≤ s.depth
  · rw [if_pos hFull, runLines_of_full shell hFull]
  · obtain ⟨room, hRoom⟩ : ∃ room, s.room = room + 1 :=
      Nat.exists_eq_succ_of_ne_zero (Nat.sub_ne_zero_of_lt (Nat.lt_of_not_le hFull))
    rw [if_neg hFull, runLines, hRoom]
    refine nested_congr (runEach_congr (fun line t hDepth => ?_) lines {} s.deeper rfl)
    have hLess : t.room = room := by
      have hDeeper : t.depth = s.depth + 1 := hDepth
      unfold Session.room at hRoom ⊢
      omega
    rw [← hLess]
    rfl

/-! ## Counting the calls -/

/-- Runs lines as the depth decides it, with so many files within each other. A file
within these is left to something else. -/
def counted (beyond : List String → SessionM σ Output) : Nat → List String → SessionM σ Output
  | 0, lines => beyond lines
  | files + 1, lines => fun s =>
      if maxDepth ≤ s.depth then .ok refusal s
      else nested (runEach (evaluateWith (counted beyond files) shell) lines {}) s

/-- **The recursion ends.** With more files within each other than there is room for,
nothing is left to do for whatever lies beyond. -/
theorem counted_eq (beyond : List String → SessionM σ Output) (files : Nat) :
    ∀ (lines : List String) (s : Session σ), s.room < files →
      counted shell beyond files lines s = runLines shell lines s := by
  induction files with
  | zero => exact fun _ _ hLess => absurd hLess (Nat.not_lt_zero _)
  | succ files ih =>
      intro lines s hLess
      rw [runLines_eq]
      unfold counted
      by_cases hFull : maxDepth ≤ s.depth
      · simp only [if_pos hFull]
      · simp only [if_neg hFull]
        refine nested_congr (runEach_congr (fun line t hDepth => ?_) lines {} s.deeper rfl)
        rw [evaluate_eq]
        refine evaluateWith_congr (fun lines' t' hDepth' => ih lines' t' ?_) line hDepth
        have hDeeper : t'.depth = s.depth + 1 := hDepth'
        unfold Session.room at hLess ⊢
        omega

end Equations

/-! ## The depth all the way -/

/-- The depth lies between that of the call and the limit. -/
def Between (origin s : Session σ) : Prop :=
  origin.depth ≤ s.depth ∧ s.depth ≤ max maxDepth origin.depth

theorem Between.of_tick {shell : Shell σ} {origin : Session σ} {a b : Moment σ}
    (h : Tick shell origin a b) (hBetween : Between origin a.session) :
    Between origin b.session := by
  obtain ⟨hLow, hHigh⟩ := hBetween
  cases h with
  | entered hRoom => exact ⟨Nat.le_succ_of_le hLow, Nat.le_trans hRoom (Nat.le_max_left _ _)⟩
  | left hDeeper => exact ⟨Nat.le_sub_one_of_lt hDeeper, Nat.le_trans (Nat.sub_le _ _) hHigh⟩
  | _ => exact ⟨hLow, hHigh⟩

/-- A call starts here, or with a renewed signal; ticks lead through these moments; and
the last one is where the call ends. -/
def Course (shell : Shell σ) (call : SessionM σ α) (s : Session σ) (moments : List (Moment σ)) :
    Prop :=
  ∃ opened, (opened = s ∨ opened = s.renewed) ∧ moments.head? = some ⟨opened, none⟩ ∧
    moments.IsChain (Tick shell s) ∧
    moments.getLast? = some ⟨endState call s, letsOut call s⟩

/-- The depth is given back, and at every moment of the call it lies between what it
was and the limit. -/
def KeepsDepth (shell : Shell σ) (call : SessionM σ α) (s : Session σ) : Prop :=
  (endState call s).depth = s.depth ∧
    ∃ moments, Course shell call s moments ∧
      ∀ moment ∈ moments, s.depth ≤ moment.session.depth ∧
        moment.session.depth ≤ max maxDepth s.depth

/-- The moments between two moments. The induction goes from the last one back. -/
theorem exists_moments {shell : Shell σ} {origin : Session σ} {a b : Moment σ}
    (h : ReflTransGen (Tick shell origin) a b) :
    Between origin a.session →
      ∃ moments, (a :: moments).IsChain (Tick shell origin) ∧
        (a :: moments).getLast? = some b ∧
        ∀ moment ∈ a :: moments, Between origin moment.session := by
  induction h using ReflTransGen.head_induction_on with
  | refl =>
      intro hBetween
      exact ⟨[], .singleton b, rfl, by simpa using hBetween⟩
  | @head a a₁ hTick _ ih =>
      intro hBetween
      obtain ⟨moments, hChain, hLast, hAll⟩ := ih (hBetween.of_tick hTick)
      refine ⟨a₁ :: moments, .cons_cons hTick hChain, by simpa using hLast, ?_⟩
      exact List.forall_mem_cons.mpr ⟨hBetween, hAll⟩

theorem KeepsDepth.of_passing {shell : Shell σ} {call : SessionM σ α} {s opened : Session σ}
    (hOpened : opened = s ∨ opened = s.renewed)
    (h : Passing shell s opened (letsOut call s) (endState call s)) : KeepsDepth shell call s := by
  have hDepth : opened.depth = s.depth := by
    rcases hOpened with rfl | rfl
    · rfl
    · exact s.depth_renewed
  have hBetween : Between s opened := by
    refine ⟨Nat.le_of_eq hDepth.symm, ?_⟩
    rw [hDepth]
    exact Nat.le_max_right _ _
  obtain ⟨moments, hChain, hLast, hAll⟩ := exists_moments h.ticks hBetween
  exact ⟨h.depth_eq.trans hDepth, _, ⟨opened, hOpened, rfl, hChain, hLast⟩, hAll⟩

theorem keepsDepth_evaluate (shell : Shell σ) (line : String) (s : Session σ) :
    KeepsDepth shell (evaluate shell line) s := by
  have hLine : Opening shell s s _ _ := passes_evaluate line s
  rcases hLine with ⟨hNone, hSame⟩ | hRun
  · refine .of_passing (.inl rfl) ?_
    rw [hNone]
    rcases hSame with hSame | hSame
    · rw [hSame]
      exact (composes_passing shell s).refl s
    · rw [hSame]
      exact .single rfl (.misread s)
  · exact .of_passing (.inr rfl) hRun

/--
**Every line ends.** A line, lines of a file and changes run as the depth of the session
decides, and nothing depends on what would happen with more files within each other than
the depth leaves room for. Throughout, the depth lies between its value at the start and
the limit, and however a call ends, the depth is what it was.
-/
theorem evaluate_ends (shell : Shell σ) (s : Session σ) :
    (∀ (beyond : List String → SessionM σ Output) (more : Nat),
      (∀ line, evaluateWith (counted shell beyond (s.room + 1 + more)) shell line s =
        evaluate shell line s) ∧
      (∀ lines, counted shell beyond (s.room + 1 + more) lines s = runLines shell lines s) ∧
      ∀ c, applyWith (counted shell beyond (s.room + 1 + more)) shell c s = apply shell c s) ∧
    (∀ line, KeepsDepth shell (evaluate shell line) s) ∧
    (∀ lines, KeepsDepth shell (runLines shell lines) s) ∧
    ∀ c, KeepsDepth shell (apply shell c) s := by
  refine ⟨fun beyond more => ?_, fun line => ?_, fun lines => ?_, fun c => ?_⟩
  · have hSame : ∀ (lines : List String) (t : Session σ), t.depth = s.depth →
        counted shell beyond (s.room + 1 + more) lines t = runLines shell lines t := by
      intro lines t hDepth
      refine counted_eq shell beyond _ lines t ?_
      unfold Session.room
      omega
    refine ⟨fun line => ?_, fun lines => hSame lines s rfl, fun c => ?_⟩
    · rw [evaluate_eq]
      exact evaluateWith_congr hSame line rfl
    · rw [apply_eq]
      exact applyWith_congr hSame c rfl
  · exact keepsDepth_evaluate shell line s
  · exact .of_passing (.inl rfl) (passes_runLines lines s)
  · exact .of_passing (.inl rfl) (passes_apply c s)

end MemShell.Session
