import MemShell.Proofs.AskedChanges
import MemShell.Proofs.CallLaws
import MemShell.Proofs.UsableAliases

/-!
# Names of aliases in every session

`alias` checks a name before it asks for an alias of that name. That all aliases of a session
have names that pass the check is more than that: the change is one of many on its way to the
session. It is merged with those of the other commands of its tree, among lines that are sourced
from files, and it is made after a tree that may have been cut short. None of this brings in a
name, since merging only chooses between what was asked for.

So no call gives a session an alias with a name that `alias` does not take, if the commands of
the shell ask for none (`named_afterLines`), and those of the core do not (`holds_namesAliases`).

## Main results

* `Builtin.namesAliases_core` — the aliases that core commands ask for.
* `callLaw_staysNamed`, `named_afterLines` — the names of aliases after calls.
-/

namespace MemShell

open Builtin (isAliasName)
open Execute

variable {σ : Type}

/-! ## The aliases that are asked for -/

/-- Every alias that is asked for has a name that `alias` takes. -/
def Changes.NamesAliases (c : Changes) : Prop :=
  ∀ name value, c.onAlias name = some (.set value) → isAliasName name = true

namespace Changes

theorem onAlias_eq_set_iff {c : Changes} {name value : String} :
    c.onAlias name = some (.set value) ↔ c.aliases.get? name = some value := by
  unfold onAlias
  cases c.aliases.get? name with
  | some value' => simp
  | none =>
      simp only [reduceCtorEq, iff_false]
      split <;> simp

theorem NamesAliases.of_empty {c : Changes} (h : c.aliases = ∅) : c.NamesAliases := by
  intro name value hSet
  rw [onAlias_eq_set_iff, h] at hSet
  cases hSet

theorem NamesAliases.merge {a b : Changes} (hFirst : a.NamesAliases) (hSecond : b.NamesAliases) :
    (a.merge b).NamesAliases := by
  intro name value hSet
  rw [onAlias_merge] at hSet
  rcases Option.or_eq_some_iff.mp hSet with hLater | ⟨-, hEarlier⟩
  · exact hSecond name value hLater
  · exact hFirst name value hEarlier

end Changes

/-! ## What the core commands ask for -/

namespace Builtin

open Changes (NamesAliases)

theorem aliases_readExports (args : List String) :
    ∀ changes : Changes, (readExports changes args).changes.aliases = changes.aliases := by
  induction args with
  | nil => exact fun changes => rfl
  | cons arg args ih =>
      intro changes
      unfold readExports
      split
      · exact ih changes
      · split
        · exact ih _
        · rfl

theorem aliases_exportVars (args : List String) (ctx : Context σ) :
    (exportVars args ctx).changes.aliases = ∅ := by
  unfold exportVars
  split
  · rfl
  · exact aliases_readExports args {}

theorem aliases_removeAliases (args : List String) (ctx : Context σ) :
    (removeAliases args ctx).changes.aliases = ∅ := by
  unfold removeAliases
  split <;> rfl

theorem aliases_exit (args : List String) : (exit args).changes.aliases = ∅ := by
  unfold exit
  split
  · rfl
  · split <;> rfl

theorem aliases_describe (call : Call σ) : (describe call).changes.aliases = ∅ := by
  unfold describe
  split <;> rfl

theorem asks_cat (args : List String) (ctx : Context σ) : Asks NamesAliases (cat args ctx) := by
  unfold cat
  split
  · exact .pure (.of_empty rfl)
  · exact .bind fun files => .pure (.of_empty rfl)

theorem asks_wc (args : List String) (ctx : Context σ) : Asks NamesAliases (wc args ctx) := by
  unfold wc
  split
  · exact .pure (.of_empty rfl)
  · split
    · exact .pure (.of_empty rfl)
    · exact .bind fun files => .pure (.of_empty rfl)

theorem asks_sleep (args : List String) :
    Asks NamesAliases (sleep args : HostM Fault σ Outcome) := by
  unfold sleep
  split
  · split
    · exact .pure (.of_empty rfl)
    · refine .bind fun interrupted => ?_
      split
      · exact .pure (.of_empty rfl)
      · exact .pure (.of_empty rfl)
  · exact .pure (.of_empty rfl)

theorem asks_history (args : List String) (ctx : Context σ) :
    Asks NamesAliases (history args ctx) := by
  unfold history
  split
  · exact .pure (.of_empty rfl)
  · split
    · exact .pure (.of_empty rfl)
    · split
      · exact .throw _
      · exact .pure (.of_empty rfl)

theorem asks_source (args : List String) (ctx : Context σ) :
    Asks NamesAliases (source args ctx) := by
  unfold source
  split
  · exact .pure (.of_empty rfl)
  · refine .bind fun content => ?_
    split
    · exact .pure (.of_empty rfl)
    · exact .pure (.of_empty rfl)

theorem asks_cd (args : List String) (ctx : Context σ) : Asks NamesAliases (cd args ctx) := by
  unfold cd
  split
  · exact .pure (.of_empty rfl)
  · dsimp only
    split
    · exact .pure (.of_empty rfl)
    · refine .bind fun found => ?_
      split
      · exact .pure (.of_empty rfl)
      · split
        · exact .pure (.of_empty rfl)
        · refine .bind fun ok => ?_
          split
          · exact .pure (.of_empty rfl)
          · exact .pure (.of_empty rfl)

theorem namesAliases_defineAliases (args : List String) (ctx : Context σ) :
    (defineAliases args ctx).changes.NamesAliases := fun name value hSet =>
  (definedIn_defineAliases args ctx name value (Changes.onAlias_eq_set_iff.mp hSet)).1

/-- **The aliases that core commands ask for** have names that `alias` takes. -/
theorem namesAliases_core :
    ∀ entry ∈ (core : List (List String × Command σ)), entry.2.Asks NamesAliases := by
  simp only [core, List.forall_mem_cons, List.not_mem_nil, false_imp_iff, implies_true, and_true]
  exact ⟨.of_pure fun _ => .of_empty rfl,
    .of_host fun call => asks_cat call.args call.context,
    .of_host fun call => asks_wc call.args call.context,
    .of_pure fun _ => .of_empty rfl,
    .of_pure fun _ => .of_empty rfl,
    .of_host fun call => asks_sleep call.args,
    .of_pure fun _ => .of_empty rfl,
    .of_host fun call => asks_cd call.args call.context,
    .of_pure fun _ => .of_empty rfl,
    .of_pure fun call => .of_empty (aliases_exportVars call.args call.context),
    .of_pure fun _ => .of_empty rfl,
    .of_pure fun call => namesAliases_defineAliases call.args call.context,
    .of_pure fun call => .of_empty (aliases_removeAliases call.args call.context),
    .of_host fun call => asks_history call.args call.context,
    .of_host fun call => asks_source call.args call.context,
    .of_pure fun call => .of_empty (aliases_exit call.args),
    .of_pure fun call => .of_empty (aliases_describe call)⟩

end Builtin

theorem holds_namesAliases :
    (Builtin.registry : Registry (Command σ)).Holds (Command.Asks Changes.NamesAliases) :=
  Registry.Holds.of_entries Builtin.core Builtin.namesAliases_core Registry.holds_empty

/-! ## The aliases of a session -/

namespace Session

variable {shell : Shell σ} {s t : Session σ}

/-- Every alias has a name that `alias` takes. -/
def Named (s : Session σ) : Prop :=
  ∀ name value, s.aliases.get? name = some value → isAliasName name = true

theorem named_of_isEmpty (h : s.aliases = ∅) : s.Named := by
  intro name value hGet
  rw [h] at hGet
  cases hGet

/-- The names of aliases are as good at the end as they were. -/
def StaysNamed (s : Session σ) (_ : Option Raised) (t : Session σ) : Prop :=
  s.Named → t.Named

theorem composes_staysNamed : Composes (StaysNamed : Session σ → Option Raised → Session σ → Prop)
    where
  refl := fun _ => id
  trans := fun hFirst hSecond hNamed => hSecond (hFirst hNamed)

theorem staysNamed_of_aliases_eq (e : Option Raised) (h : t.aliases = s.aliases) :
    StaysNamed s e t := by
  intro hNamed name value hGet
  rw [h] at hGet
  exact hNamed name value hGet

/-- Changes that ask for good names give good names. -/
theorem named_changedAliases {c : Changes} (hAsked : c.NamesAliases) (hNamed : s.Named)
    (env : Table String String) :
    Named { s with env, aliases := changedAliases s.aliases c } := by
  intro name value hGet
  have hAfter := (Changes.get?_changedAliases s.aliases c name).symm.trans hGet
  cases hAction : c.onAlias name with
  | none =>
      rw [hAction] at hAfter
      exact hNamed name value hAfter
  | some action =>
      rw [hAction] at hAfter
      cases action with
      | set value' => exact hAsked name value' hAction
      | remove => cases hAfter

theorem staysNamed_changeDir (dir : Option String) (s : Session σ) :
    Leads StaysNamed (changeDir shell dir) s := by
  have hMoves : Leads (fun s e t => Relocated s t ∧ Passing shell s s e t)
      (changeDir shell dir) s :=
    passes_changeDir dir id
  obtain ⟨⟨env, m, hSame⟩, -⟩ := hMoves
  exact staysNamed_of_aliases_eq _ (by rw [hSame])

section Trees

variable {sourcing : List String → SessionM σ Output}
  (hSourcing : ∀ lines s, Leads StaysNamed (sourcing lines) s)
include hSourcing

theorem staysNamed_applyWith {c : Changes} (hAsked : c.NamesAliases) (s : Session σ) :
    Leads StaysNamed (applyWith sourcing shell c) s := by
  have hC := @composes_staysNamed σ
  unfold applyWith
  refine hC.leads_bind_of_ok rfl (fun hNamed => named_changedAliases hAsked hNamed _) ?_
  refine hC.leads_bind (staysNamed_changeDir c.chdir _) fun _ s₁ _ => ?_
  refine hC.leads_bind_of_ok rfl (staysNamed_of_aliases_eq none rfl) ?_
  refine leads_sourced hC hSourcing c.sourceLines (fun extra s₂ => ?_) _
  cases c.exitCode with
  | none => exact leads_of_ok rfl (hC.refl s₂)
  | some code =>
      refine leads_bind_of_ok rfl (leads_bind_of_ok rfl (leads_of_ok rfl ?_))
      exact staysNamed_of_aliases_eq none rfl

/-- **One tree** with all that is done because of it. -/
theorem staysNamed_runTree (hHolds : shell.registry.Holds (Command.Asks Changes.NamesAliases))
    (tree : Tree) (s : Session σ) : Leads StaysNamed (runTree sourcing shell tree) s := by
  have hC := @composes_staysNamed σ
  have hEmit : emit (.started tree) s =
      .ok () { s with machine := s.machine.log (.started tree) } := rfl
  unfold runTree
  refine leads_bind_of_ok hEmit (leads_bind_of_ok rfl ?_)
  cases hRun : run shell.registry (s.context shell) tree (s.machine.log (.started tree)) with
  | error e m =>
      exact leads_bind_of_error (onMachine_of_error hRun) (staysNamed_of_aliases_eq (some e) rfl)
  | ok result m =>
      have hAsked : result.changes.NamesAliases :=
        asked_of_run hHolds (.of_empty rfl) (fun _ _ => .merge) hRun
      have hRan : StaysNamed s none { s with machine := m, lastStatus := result.status } :=
        staysNamed_of_aliases_eq none rfl
      refine leads_bind_of_ok (onMachine_of_ok hRun) (leads_bind_of_ok rfl ?_)
      cases result.changes.isEmpty with
      | true => exact leads_of_ok rfl hRan
      | false =>
          refine hC.trans hRan (hC.leads_bind (staysNamed_applyWith hSourcing hAsked _) ?_)
          intro extra s₁ _
          cases extra with
          | none => exact leads_of_ok rfl (hC.refl s₁)
          | some extra => exact leads_of_ok rfl (hC.refl s₁)

end Trees

/-- **The law of trees, and so of calls.** -/
theorem callLaw_staysNamed
    (hHolds : shell.registry.Holds (Command.Asks Changes.NamesAliases)) :
    CallLaw shell StaysNamed where
  composes := composes_staysNamed
  tree := fun hSourcing tree s => staysNamed_runTree hSourcing hHolds tree s
  renewed := by
    intro s
    unfold renewed
    split
    · exact staysNamed_of_aliases_eq none rfl
    · exact composes_staysNamed.refl s
  misread := fun s => staysNamed_of_aliases_eq none rfl
  nested := fun h => h
  asked := fun path s => staysNamed_of_aliases_eq _ rfl
  read := fun path s => staysNamed_of_aliases_eq none rfl
  said := fun _ s => staysNamed_of_aliases_eq none rfl

/-- The session after lines were evaluated one after the other, however each of them ended. -/
def afterLines (shell : Shell σ) (s : Session σ) (lines : List String) : Session σ :=
  lines.foldl (fun s line => endState (evaluate shell line) s) s

/-- **The names of aliases** after any lines are names that `alias` takes, if they were before. -/
theorem named_afterLines (hHolds : shell.registry.Holds (Command.Asks Changes.NamesAliases))
    (lines : List String) : ∀ {s : Session σ}, s.Named → (afterLines shell s lines).Named := by
  induction lines with
  | nil => exact fun hNamed => hNamed
  | cons line lines ih =>
      intro s hNamed
      exact ih ((callLaw_staysNamed hHolds).evaluate line s hNamed)

end Session

end MemShell
