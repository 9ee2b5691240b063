import Mathlib.Data.List.Induction
import MemShell.Proofs.AlikeRuns
import MemShell.Proofs.CutReading
import MemShell.Proofs.RaisedSignal

/-!
# A chain is scanned from left to right

A chain of `&&` and `||` is a tree that leans to the left: what is written last is at its
top, and the operand that runs first is at the bottom. Running it goes down to that operand
and comes up again, and on the way up each connective decides whether its right side runs.
Nobody who writes such a line thinks of it so. What is meant is a *scan*: run the first
operand, then look at one connective after the other, keep the result as it is or replace
it by that of the next operand.

The two agree. With the signal down at the start they are even the same run, event by event
(`run_chain_of_not_isStopped`): on the way down nothing happens but looks at the signal,
and the induction takes the last link off the chain, which is the top of the tree. With the
signal up at the start the tree is held back once, at its top, and the scan is held back at
the first operand and again at every `||`; nothing is done in either case.

## Main results

* `exists_chain_of_build` — the trees of a line are chains of pipelines.
* `run_chain_of_not_isStopped` — with the signal down, the scan is the run of the tree.
* `run_chain_eq_scan` — wherever they start, the two end alike.
-/

namespace MemShell

/-! ## Chains -/

namespace Tree

/-- Operands joined from left to right. -/
def chain (first : Tree) (links : List (Connective × Tree)) : Tree :=
  links.foldl (fun left link => .logical left link.1 link.2) first

/-- The last link is the top of the tree. -/
theorem chain_concat (first : Tree) (links : List (Connective × Tree)) (link : Connective × Tree) :
    chain first (links ++ [link]) = .logical (chain first links) link.1 link.2 := by
  rw [chain, List.foldl_append]
  rfl

/-- What stands between connectives: stages, or a single command. -/
def IsOperand (t : Tree) : Prop :=
  ∃ stages, stages ≠ [] ∧ t = ofStages stages

end Tree

theorem Cut.isOperand_pipeline (piece : List Token) : (Cut.pipeline piece).IsOperand :=
  ⟨Cut.stages piece, by simp [Cut.stages, List.splitOnP_ne_nil], rfl⟩

/-- The operands that a segment is joined from. -/
theorem Cut.join_eq_chain (left : Tree) (cs : List Connective) (pieces : List (List Token)) :
    Cut.join left cs pieces =
      .chain left ((cs.zip pieces).map fun p => (p.1, Cut.pipeline p.2)) := by
  rw [Tree.chain, List.foldl_map]
  rfl

/-- **The trees of a line** are chains of pipelines. -/
theorem exists_chain_of_build {ts : List Token} {trees : List Tree}
    (h : Tree.build ts = .ok trees) :
    ∀ tree ∈ trees, ∃ first links, tree = .chain first links ∧ first.IsOperand ∧
      ∀ link ∈ links, link.2.IsOperand := by
  intro tree hTree
  rw [Cut.run_eq_trees ts h] at hTree
  obtain ⟨segment, -, rfl⟩ := List.mem_map.mp hTree
  refine ⟨_, _, Cut.join_eq_chain _ _ _, Cut.isOperand_pipeline _, ?_⟩
  intro link hLink
  obtain ⟨p, -, rfl⟩ := List.mem_map.mp hLink
  exact Cut.isOperand_pipeline p.2

/-! ## Scans -/

namespace Execute

variable {σ : Type}

/-- Takes one more link of a chain. A result that settles the connective stands; otherwise
the operand runs, if the signal is down, and its texts and status replace those so far. -/
def scanLink (registry : Registry (Command σ)) (ctx : Context σ) (current : Outcome)
    (link : Connective × Tree) : MachineM Raised σ Outcome :=
  if link.1 = .and ∧ current.status ≠ 0 ∨ link.1 = .or ∧ current.status = 0 then
    return current
  else
    unlessStopped current.changes do
      let next ← run registry ctx link.2
      return { stdout := next.stdout, stderr := next.stderr, status := next.status,
               changes := current.changes.merge next.changes }

/-- Runs a chain by taking its links one after the other. -/
def scan (registry : Registry (Command σ)) (ctx : Context σ) (first : Tree)
    (links : List (Connective × Tree)) : MachineM Raised σ Outcome := do
  let current ← run registry ctx first
  links.foldlM (scanLink registry ctx) current

/-- The connective is settled where the chain ends after its left side. -/
theorem scanLink_eq (registry : Registry (Command σ)) (ctx : Context σ) (current : Outcome)
    (link : Connective × Tree) :
    scanLink registry ctx current link =
      if stopsAfter link.1 current then return current
      else unlessStopped current.changes do
        let next ← run registry ctx link.2
        return { next with changes := current.changes.merge next.changes } := by
  obtain ⟨connective, operand⟩ := link
  cases connective <;> simp [scanLink, stopsAfter, Outcome.ok]

theorem scan_concat (registry : Registry (Command σ)) (ctx : Context σ) (first : Tree)
    (links : List (Connective × Tree)) (link : Connective × Tree) :
    scan registry ctx first (links ++ [link]) = (do
      let current ← scan registry ctx first links
      scanLink registry ctx current link) := by
  simp [scan, List.foldlM_append]

section Runs

variable {registry : Registry (Command σ)} {ctx : Context σ} {m : Machine σ}

/-- The top of a tree: what comes after its left side is one link. -/
theorem run_logical_of_not_isStopped (hDown : m.isStopped = false) (left : Tree)
    (link : Connective × Tree) :
    run registry ctx (.logical left link.1 link.2) m = (do
      let current ← run registry ctx left
      scanLink registry ctx current link) m := by
  simp only [run, unlessStopped_of_not_isStopped hDown, scanLink_eq]

/-- **With the signal down** at the start, the scan is the run of the tree. -/
theorem run_chain_of_not_isStopped (hDown : m.isStopped = false) (first : Tree)
    (links : List (Connective × Tree)) :
    run registry ctx (.chain first links) m = scan registry ctx first links m := by
  induction links using List.reverseRecOn with
  | nil => simp [Tree.chain, scan]
  | append_singleton links link ih =>
      rw [Tree.chain_concat, scan_concat, run_logical_of_not_isStopped hDown]
      exact bind_congr_of_ok ih fun _ _ _ => rfl

end Runs

/-- With the signal up, a link is passed or held back, and what was interrupted stays so. -/
theorem scanLink_of_isStopped (registry : Registry (Command σ)) (ctx : Context σ)
    {m : Machine σ} (hUp : m.isStopped = true) (link : Connective × Tree) :
    ∃ m', scanLink registry ctx (.interrupted {}) link m = .ok (.interrupted {}) m' ∧
      m.Alike m' := by
  obtain ⟨connective, operand⟩ := link
  rw [scanLink_eq]
  cases connective with
  | and => exact ⟨m, rfl, .refl m⟩
  | or =>
      refine ⟨m.log .interrupted, ?_, (Machine.Alike.refl m).log_right rfl⟩
      show unlessStopped {} _ m = _
      rw [unlessStopped, if_pos hUp]

theorem foldlM_scanLink_of_isStopped (registry : Registry (Command σ)) (ctx : Context σ)
    (links : List (Connective × Tree)) :
    ∀ {m : Machine σ}, m.isStopped = true →
      ∃ m', links.foldlM (scanLink registry ctx) (.interrupted {}) m = .ok (.interrupted {}) m' ∧
        m.Alike m' := by
  induction links with
  | nil => exact fun {m} _ => ⟨m, rfl, .refl m⟩
  | cons link links ih =>
      intro m hUp
      obtain ⟨m₁, hLink, hAlike⟩ := scanLink_of_isStopped registry ctx hUp link
      obtain ⟨m', hLinks, hAlike'⟩ := ih (hAlike.isStopped ▸ hUp)
      refine ⟨m', ?_, hAlike.trans hAlike'⟩
      rw [List.foldlM_cons]
      exact (bind_of_ok hLink).trans hLinks

/--
**A chain is scanned from left to right.** Every tree of a line is a chain of pipelines. And
for all operands and connectives, all commands, all contexts and stores, and whatever the
signal does in the meantime, running the tree and scanning the chain end alike: both give
the same outcome or let the same thing out, the same commands were called and ended in the
same way, the same files were read and written, and store and signal are the same.
-/
theorem run_chain_eq_scan :
    (∀ (ts : List Token) (trees : List Tree), Tree.build ts = .ok trees →
      ∀ tree ∈ trees, ∃ first links, tree = .chain first links ∧ first.IsOperand ∧
        ∀ link ∈ links, link.2.IsOperand) ∧
    ∀ (registry : Registry (Command σ)) (ctx : Context σ) (first : Tree)
      (links : List (Connective × Tree)) (m : Machine σ),
      EndAlike Eq (run registry ctx (.chain first links) m) (scan registry ctx first links m) := by
  refine ⟨fun ts trees h => exists_chain_of_build h, ?_⟩
  intro registry ctx first links m
  cases hStopped : m.isStopped with
  | false =>
      rw [run_chain_of_not_isStopped hStopped]
      exact .refl _
  | true =>
      have hFirst := run_of_isStopped registry ctx first hStopped
      have hStill : (m.log .interrupted).isStopped = true := hStopped
      obtain ⟨m', hLinks, hAlike⟩ :=
        foldlM_scanLink_of_isStopped registry ctx links hStill
      rw [run_of_isStopped registry ctx _ hStopped, scan, bind_of_ok hFirst, hLinks]
      exact .returned rfl hAlike

/-- The tokens of `echo a || stop && stop && echo b || echo c`. -/
def scannedTokens : List Token :=
  [⟨.word, "echo"⟩, ⟨.word, "a"⟩, ⟨.or, "||"⟩, ⟨.word, "stop"⟩, ⟨.and, "&&"⟩, ⟨.word, "stop"⟩,
    ⟨.and, "&&"⟩, ⟨.word, "echo"⟩, ⟨.word, "b"⟩, ⟨.or, "||"⟩, ⟨.word, "echo"⟩, ⟨.word, "c"⟩]

def scannedLinks : List (Connective × Tree) :=
  [(.or, .simple ⟨"stop", [], []⟩), (.and, .simple ⟨"stop", [], []⟩),
    (.and, .simple ⟨"echo", ["b"], []⟩), (.or, .simple ⟨"echo", ["c"], []⟩)]

def scannedTree : Tree :=
  .chain (.simple ⟨"echo", ["a"], []⟩) scannedLinks

/-- A machine whose signal is watched and down. -/
def watchedMachine : Machine FileTree :=
  { store := .empty, signal := some ⟨false, false⟩ }

/-- The first `stop` is passed, the second puts the signal up, and what follows is held
back. -/
theorem run_chain_eq_scan_scannedTree :
    let registry := Session.stoppable.registry
    let scanned := scan registry {} (.simple ⟨"echo", ["a"], []⟩) scannedLinks watchedMachine
    Tree.build scannedTokens = .ok [scannedTree] ∧
      (∃ first links, scannedTree = .chain first links ∧ first.IsOperand ∧
        ∀ link ∈ links, link.2.IsOperand) ∧
      EndAlike Eq (run registry {} scannedTree watchedMachine) scanned ∧
      ∃ m', scanned = .ok (.interrupted {}) m' ∧
        dispatched m'.deeds = [("echo", ["a"]), ("stop", [])] := by
  intro registry scanned
  have hBuild : Tree.build scannedTokens = .ok [scannedTree] := rfl
  obtain ⟨hChains, hScans⟩ := run_chain_eq_scan (σ := FileTree)
  refine ⟨hBuild, hChains _ _ hBuild _ List.mem_cons_self, hScans _ _ _ _ _, _, rfl, ?_⟩
  decide +kernel

end Execute

end MemShell
