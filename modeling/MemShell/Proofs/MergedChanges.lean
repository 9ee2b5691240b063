import Mathlib.Data.List.Nodup
import MemShell.Session

/-!
# What merged changes do

Changes set and remove variables and aliases, and a session makes them in a
fixed order: variables are set before others are removed, aliases are removed
before others are set. Seen from one name, all of that comes down to one
`Action` or to none: the name is set, or removed, or left alone (`onVariable`,
`onAlias`). A session does to each name what the action says, whatever else the
changes ask for.

Merging is meant to let the later action win. For aliases it does
(`onAlias_merge`). For variables it does unless the later changes set a variable
that the earlier ones list for removal more than once: setting takes back one
listing only, and a listing that stays removes the variable again
(`onVariable_merge_set`). Without repeated listings nothing goes wrong
(`onVariable_merge_of_nodup`).

## Main results

* `get?_changedEnv`, `get?_changedAliases` — changes as actions on names.
* `onVariable_merge_none`, `onVariable_merge_remove`, `onVariable_merge_set` —
  the action of merged changes on a variable, by what the later changes ask for.
* `onAlias_merge` — their action on an alias.
* `nodup_unsets_merge` — merging repeats no listing of its own accord.
-/

namespace MemShell

/-! ## Entering and removing many keys -/

namespace Table

variable {κ : Type u} {α : Type v} [DecidableEq κ]

private theorem get?_insertMany_of_nodup (key : κ) (es : List (κ × α)) :
    ∀ t : Table κ α, (es.map Prod.fst).Nodup →
      (t.insertMany es).get? key = (lookup key es).or (t.get? key) := by
  induction es with
  | nil => intro t _; rfl
  | cons e es ih =>
      intro t hNodup
      obtain ⟨k, a⟩ := e
      obtain ⟨hNew, hRest⟩ := List.nodup_cons.mp hNodup
      show ((t.insert k a).insertMany es).get? key = _
      rw [ih _ hRest, get?_insert, lookup]
      by_cases hKey : k = key
      · subst hKey
        rw [lookup_eq_none_iff.mpr hNew]
        simp
      · simp [hKey]

/-- The entries of a table win over what was there. -/
theorem get?_insertMany_entries (t u : Table κ α) (key : κ) :
    (t.insertMany u.entries).get? key = (u.get? key).or (t.get? key) :=
  get?_insertMany_of_nodup key u.entries t u.nodup

theorem get?_eraseMany (ks : List κ) (key : κ) :
    ∀ t : Table κ α, (t.eraseMany ks).get? key = if key ∈ ks then none else t.get? key := by
  induction ks with
  | nil => intro t; simp [eraseMany]
  | cons k ks ih =>
      intro t
      show ((t.erase k).eraseMany ks).get? key = _
      rw [ih, get?_erase]
      by_cases hHead : key = k
      · simp [hHead]
      · simp [hHead]

end Table

namespace Changes

/-! ## Pending settings and removals -/

namespace Pending

theorem set_foldl_enter (es : List (String × String)) :
    ∀ p : Pending, (es.foldl enter p).set = p.set.insertMany es := by
  induction es with
  | nil => intro p; rfl
  | cons e es ih => intro p; exact ih (p.enter e)

theorem set_foldl_remove (ks : List String) :
    ∀ p : Pending, (ks.foldl remove p).set = p.set.eraseMany ks := by
  induction ks with
  | nil => intro p; rfl
  | cons k ks ih => intro p; exact ih (p.remove k)

theorem mem_addName {names : List String} {name key : String} :
    key ∈ addName names name ↔ key ∈ names ∨ key = name := by
  unfold addName
  by_cases hMem : name ∈ names
  · rw [if_pos hMem]
    constructor
    · exact .inl
    · rintro (hKey | rfl)
      · exact hKey
      · exact hMem
  · simp [hMem]

theorem mem_removed_foldl_remove (ks : List String) (key : String) :
    ∀ p : Pending, key ∈ (ks.foldl remove p).removed ↔ key ∈ p.removed ∨ key ∈ ks := by
  induction ks with
  | nil => intro p; simp
  | cons k ks ih =>
      intro p
      rw [List.foldl_cons, ih]
      show key ∈ addName p.removed k ∨ key ∈ ks ↔ _
      rw [mem_addName, List.mem_cons, or_assoc]

private theorem count_removed_of_nodup (key : String) (es : List (String × String)) :
    ∀ p : Pending, (es.map Prod.fst).Nodup →
      (es.foldl enter p).removed.count key =
        p.removed.count key - if (Table.lookup key es).isSome then 1 else 0 := by
  induction es with
  | nil => intro p _; rfl
  | cons e es ih =>
      intro p hNodup
      obtain ⟨k, v⟩ := e
      obtain ⟨hNew, hRest⟩ := List.nodup_cons.mp hNodup
      rw [List.foldl_cons, ih _ hRest]
      show (p.removed.erase k).count key - _ = _
      rw [List.count_erase, Table.lookup]
      by_cases hKey : k = key
      · subst hKey
        rw [Table.lookup_eq_none_iff.mpr hNew]
        simp
      · simp [hKey]

/-- Setting takes back one listing of each name that is set. -/
theorem count_removed_foldl_enter (key : String) (t : Table String String) (p : Pending) :
    (t.entries.foldl enter p).removed.count key =
      p.removed.count key - if (t.get? key).isSome then 1 else 0 :=
  count_removed_of_nodup key t.entries p t.nodup

theorem nodup_removed_foldl_enter (es : List (String × String)) :
    ∀ p : Pending, p.removed.Nodup → (es.foldl enter p).removed.Nodup := by
  induction es with
  | nil => intro p h; exact h
  | cons e es ih => intro p h; exact ih (p.enter e) (h.erase e.1)

theorem nodup_removed_foldl_remove (ks : List String) :
    ∀ p : Pending, p.removed.Nodup → (ks.foldl remove p).removed.Nodup := by
  induction ks with
  | nil => intro p h; exact h
  | cons k ks ih =>
      intro p h
      refine ih (p.remove k) ?_
      show (addName p.removed k).Nodup
      unfold addName
      by_cases hMem : k ∈ p.removed
      · rw [if_pos hMem]
        exact h
      · rw [if_neg hMem]
        exact List.nodup_append.mpr ⟨h, by simp, by
          intro a ha b hb hEq
          rw [List.mem_singleton] at hb
          exact hMem (hb ▸ hEq ▸ ha)⟩

end Pending

/-! ## Changes as actions on names -/

/-- What changes do to one name. -/
inductive Action where
  | set (value : String)
  | remove
deriving DecidableEq, Repr

/-- What a name has after an action, and after none. -/
def Action.after : Option Action → Option String → Option String
  | none, before => before
  | some (.set value), _ => some value
  | some .remove, _ => none

/-- What changes do to a variable: removals are made last. -/
def onVariable (c : Changes) (key : String) : Option Action :=
  if key ∈ c.unsets then some .remove else (c.exports.get? key).map .set

/-- What changes do to an alias: settings are made last. -/
def onAlias (c : Changes) (name : String) : Option Action :=
  match c.aliases.get? name with
  | some value => some (.set value)
  | none => if c.clearAliases = true ∨ name ∈ c.unaliases then some .remove else none

theorem get?_changedEnv (env : Table String String) (c : Changes) (key : String) :
    (Session.changedEnv env c).get? key = Action.after (c.onVariable key) (env.get? key) := by
  unfold Session.changedEnv onVariable
  rw [Table.get?_eraseMany, Table.get?_insertMany_entries]
  by_cases hRemoved : key ∈ c.unsets
  · simp [hRemoved, Action.after]
  · cases hSet : c.exports.get? key <;> simp [hRemoved, Action.after]

theorem get?_changedAliases (aliases : Table String String) (c : Changes) (name : String) :
    (Session.changedAliases aliases c).get? name =
      Action.after (c.onAlias name) (aliases.get? name) := by
  have hEmpty : (∅ : Table String String).get? name = none := Table.get?_empty name
  unfold Session.changedAliases onAlias
  rw [Table.get?_insertMany_entries, Table.get?_eraseMany]
  cases hSet : c.aliases.get? name with
  | some value => rfl
  | none =>
      by_cases hRemoved : name ∈ c.unaliases
      · simp [hRemoved, Action.after]
      · cases hClear : c.clearAliases <;> simp [hRemoved, hEmpty, Action.after]

/-! ## The action of merged changes on a variable -/

private theorem get?_exports_merge (a b : Changes) (key : String) :
    (a.merge b).exports.get? key =
      if key ∈ b.unsets then none else (b.exports.get? key).or (a.exports.get? key) := by
  show (b.unsets.foldl Pending.remove _).set.get? key = _
  rw [Pending.set_foldl_remove, Pending.set_foldl_enter, Table.get?_eraseMany,
    Table.get?_insertMany_entries]

private theorem mem_unsets_merge (a b : Changes) (key : String) :
    key ∈ (a.merge b).unsets ↔
      (0 < a.unsets.count key - if (b.exports.get? key).isSome then 1 else 0) ∨
        key ∈ b.unsets := by
  show key ∈ (b.unsets.foldl Pending.remove _).removed ↔ _
  rw [Pending.mem_removed_foldl_remove, ← List.count_pos_iff,
    Pending.count_removed_foldl_enter]

/-- What the later changes leave alone is up to the earlier ones. -/
theorem onVariable_merge_none {a b : Changes} {key : String} (h : b.onVariable key = none) :
    (a.merge b).onVariable key = a.onVariable key := by
  have hKept : key ∉ b.unsets := by
    intro hMem
    simp [onVariable, hMem] at h
  have hUnset : b.exports.get? key = none := by
    simpa [onVariable, hKept] using h
  have hMem : key ∈ (a.merge b).unsets ↔ key ∈ a.unsets := by
    rw [mem_unsets_merge, hUnset]
    simp [hKept]
  have hGet : (a.merge b).exports.get? key = a.exports.get? key := by
    rw [get?_exports_merge, if_neg hKept, hUnset]
    rfl
  simp only [onVariable, hMem, hGet]

/-- What the later changes remove is removed. -/
theorem onVariable_merge_remove {a b : Changes} {key : String}
    (h : b.onVariable key = some .remove) : (a.merge b).onVariable key = some .remove := by
  have hRemoved : key ∈ b.unsets := by
    by_contra hKept
    simp [onVariable, hKept] at h
  have hMem : key ∈ (a.merge b).unsets := (mem_unsets_merge a b key).mpr (.inr hRemoved)
  simp [onVariable, hMem]

/-- What the later changes set is set, unless the earlier ones list it for removal
more than once. -/
theorem onVariable_merge_set {a b : Changes} {key value : String}
    (h : b.onVariable key = some (.set value)) :
    (a.merge b).onVariable key =
      if 1 < a.unsets.count key then some .remove else some (.set value) := by
  have hKept : key ∉ b.unsets := by
    intro hMem
    simp [onVariable, hMem] at h
  have hSet : b.exports.get? key = some value := by
    simpa [onVariable, hKept] using h
  have hMem : key ∈ (a.merge b).unsets ↔ 1 < a.unsets.count key := by
    rw [mem_unsets_merge, hSet]
    simp only [Option.isSome_some, if_true, hKept, or_false]
    omega
  have hGet : (a.merge b).exports.get? key = some value := by
    rw [get?_exports_merge, if_neg hKept, hSet]
    rfl
  simp only [onVariable, hMem, hGet, Option.map_some]

/-- Without repeated listings the later action wins. -/
theorem onVariable_merge_of_nodup {a : Changes} (h : a.unsets.Nodup) (b : Changes)
    (key : String) :
    (a.merge b).onVariable key = (b.onVariable key).or (a.onVariable key) := by
  have hOnce : ¬ 1 < a.unsets.count key := by
    have := List.nodup_iff_count_le_one.mp h key
    omega
  match hLater : b.onVariable key with
  | none => rw [onVariable_merge_none hLater, Option.none_or]
  | some .remove => rw [onVariable_merge_remove hLater, Option.some_or]
  | some (.set value) => rw [onVariable_merge_set hLater, if_neg hOnce, Option.some_or]

theorem nodup_unsets_merge {a : Changes} (h : a.unsets.Nodup) (b : Changes) :
    (a.merge b).unsets.Nodup :=
  Pending.nodup_removed_foldl_remove _ _ (Pending.nodup_removed_foldl_enter _ _ h)

/-! ## The action of merged changes on an alias -/

/-- The later action on an alias wins: a listing that stays does no harm, since
aliases are removed before others are set. -/
theorem onAlias_merge (a b : Changes) (name : String) :
    (a.merge b).onAlias name = (b.onAlias name).or (a.onAlias name) := by
  let kept : Pending := if b.clearAliases then ⟨∅, []⟩ else ⟨a.aliases, a.unaliases⟩
  have hGet : (a.merge b).aliases.get? name = (b.aliases.get? name).or
      (if name ∈ b.unaliases then none else kept.set.get? name) := by
    show (b.aliases.entries.foldl Pending.enter _).set.get? name = _
    rw [Pending.set_foldl_enter, Pending.set_foldl_remove, Table.get?_insertMany_entries,
      Table.get?_eraseMany]
  have hMem : b.aliases.get? name = none →
      (name ∈ (a.merge b).unaliases ↔ name ∈ kept.removed ∨ name ∈ b.unaliases) := by
    intro hUnset
    show name ∈ (b.aliases.entries.foldl Pending.enter _).removed ↔ _
    rw [← List.count_pos_iff, Pending.count_removed_foldl_enter, hUnset]
    simp only [Option.isSome_none, Bool.false_eq_true, if_false, Nat.sub_zero,
      List.count_pos_iff]
    exact Pending.mem_removed_foldl_remove _ _ _
  have hClear : (a.merge b).clearAliases = (a.clearAliases || b.clearAliases) := rfl
  have hEmpty : (∅ : Table String String).get? name = none := Table.get?_empty name
  unfold onAlias
  rw [hGet]
  cases hSet : b.aliases.get? name with
  | some value => rfl
  | none =>
      simp only [hMem hSet, hClear, Option.none_or]
      -- the earlier aliases count only if the later changes neither clear nor remove
      by_cases hRemoved : name ∈ b.unaliases
      · simp [hRemoved]
      · cases hAll : b.clearAliases with
        | true => simp [kept, hAll, hEmpty, hRemoved]
        | false => cases hOld : a.aliases.get? name <;> simp [kept, hAll, hOld, hRemoved]

end Changes

end MemShell
