import MemShell.Proofs.GatheredChanges

/-!
# Merging as composition

A pipeline merges the changes of its stages into an empty value, a chain merges those
of its two sides, and both take merging for the composition of changes. Two things are
asked of it. Making merged changes should be making the one and then the other, and
how merges are grouped should not matter.

The first holds with one exception, which can be told from the changes alone: a
variable that the later changes set, while the earlier ones list it for removal more
than once, is set by the one and then the other and removed by the merged changes
(`apply_merge_iff`). No session hides the difference.

The second cannot hold of the values as they are written, since grouping decides in
which order names are listed, and taking back one listing of a name that is listed twice
leaves the other. So values are compared by what they list and not by the order, and those
on the left list nothing twice and set nothing that they remove: they are *normal*. Of a
normal value the pending `action` on a name says all that is listed of that name
(`Pending.get?_eq_valueOf`, `Pending.Normal.mem_removed_iff`), and merging onto a normal
value lets the later action win (`action_vars_merge`, `action_names_merge`). Merging keeps
values normal, whatever is merged onto them, and grouping does not matter because letting
the later action win is associative.

## Main results

* `apply_merge_iff` — when making merged changes is making them in turn.
* `isEmpty_iff` — an empty value is one that asks for nothing.
* `merge_monoid` — normal changes are a monoid under merging, and what is empty neither
  comes from nor leads to a change.
-/

namespace MemShell

theorem Table.isEmpty_iff_get? {κ : Type u} {α : Type v} [DecidableEq κ] (t : Table κ α) :
    t.isEmpty = true ↔ ∀ key, t.get? key = none := by
  unfold isEmpty
  rw [List.isEmpty_iff]
  constructor
  · intro hEmpty key
    simp [get?, hEmpty, lookup]
  · intro hNone
    cases hEntries : t.entries with
    | nil => rfl
    | cons e es =>
        have hGet := hNone e.1
        simp [get?, hEntries, lookup] at hGet

namespace Changes

/-! ## Pending settings and removals that do not contradict each other -/

namespace Pending

/-- No name is listed twice for removal, and none is both set and removed. -/
structure Normal (p : Pending) : Prop where
  nodup : p.removed.Nodup
  unset : ∀ name ∈ p.removed, p.set.get? name = none

instance (p : Pending) : Decidable p.Normal :=
  decidable_of_iff (p.removed.Nodup ∧ ∀ name ∈ p.removed, p.set.get? name = none)
    ⟨fun h => ⟨h.1, h.2⟩, fun h => ⟨h.1, h.2⟩⟩

/-- What is pending for a name. -/
def action (p : Pending) (name : String) : Option Action :=
  match p.set.get? name with
  | some value => some (.set value)
  | none => if name ∈ p.removed then some .remove else none

/-- The value that an action gives to a name. -/
def valueOf : Option Action → Option String
  | some (.set value) => some value
  | _ => none

theorem normal_nothing : Normal ⟨∅, []⟩ :=
  ⟨List.nodup_nil, fun _ hName => by cases hName⟩

theorem get?_eq_valueOf (p : Pending) (name : String) :
    p.set.get? name = valueOf (p.action name) := by
  unfold action
  cases p.set.get? name with
  | some value => rfl
  | none => by_cases hRemoved : name ∈ p.removed <;> simp [hRemoved, valueOf]

theorem action_congr {p q : Pending} {name : String} (hSet : p.set.get? name = q.set.get? name)
    (hRemoved : name ∈ p.removed ↔ name ∈ q.removed) : p.action name = q.action name := by
  unfold action
  rw [hSet]
  cases q.set.get? name with
  | some value => rfl
  | none => simp only [hRemoved]

theorem Normal.mem_removed_iff {p : Pending} (h : p.Normal) {name : String} :
    name ∈ p.removed ↔ p.action name = some .remove := by
  unfold action
  constructor
  · intro hRemoved
    rw [h.unset name hRemoved]
    simp [hRemoved]
  · intro hAction
    cases hGet : p.set.get? name with
    | some value => simp [hGet] at hAction
    | none => simpa [hGet] using hAction

/-- Setting takes back the listings of what is set, if nothing is listed twice. -/
theorem mem_removed_foldl_enter {p : Pending} (h : p.removed.Nodup) (t : Table String String)
    (name : String) :
    name ∈ (t.entries.foldl enter p).removed ↔ name ∈ p.removed ∧ t.get? name = none := by
  have hOnce : p.removed.count name ≤ 1 := List.nodup_iff_count_le_one.mp h name
  rw [← List.count_pos_iff, count_removed_foldl_enter, ← List.count_pos_iff (l := p.removed)]
  cases t.get? name with
  | none => simp
  | some value =>
      simp only [Option.isSome_some, if_true, reduceCtorEq, and_false, iff_false]
      omega

theorem Normal.foldl_enter {p : Pending} (h : p.Normal) (t : Table String String) :
    (t.entries.foldl enter p).Normal where
  nodup := nodup_removed_foldl_enter t.entries p h.nodup
  unset := by
    intro name hName
    obtain ⟨hRemoved, hNew⟩ := (mem_removed_foldl_enter h.nodup t name).mp hName
    rw [set_foldl_enter, Table.get?_insertMany_entries, hNew, h.unset name hRemoved]
    rfl

theorem Normal.foldl_remove {p : Pending} (h : p.Normal) (ks : List String) :
    (ks.foldl remove p).Normal where
  nodup := nodup_removed_foldl_remove ks p h.nodup
  unset := by
    intro name hName
    rw [set_foldl_remove, Table.get?_eraseMany]
    rcases (mem_removed_foldl_remove ks name p).mp hName with hRemoved | hListed
    · simp [h.unset name hRemoved]
    · simp [hListed]

/-- What is set is pending as set, and all else as before. -/
theorem action_foldl_enter {p : Pending} (h : p.removed.Nodup) (t : Table String String)
    (name : String) :
    (t.entries.foldl enter p).action name = ((t.get? name).map .set).or (p.action name) := by
  unfold action
  simp only [mem_removed_foldl_enter h, set_foldl_enter, Table.get?_insertMany_entries]
  cases t.get? name with
  | some value => rfl
  | none => simp

/-- What is removed is pending as removed, and all else as before. -/
theorem action_foldl_remove (p : Pending) (ks : List String) (name : String) :
    (ks.foldl remove p).action name =
      if name ∈ ks then some .remove else p.action name := by
  unfold action
  simp only [mem_removed_foldl_remove, set_foldl_remove, Table.get?_eraseMany]
  by_cases hListed : name ∈ ks <;> simp [hListed]

end Pending

/-! ## Normal changes -/

/-- What is pending for variables. -/
def vars (c : Changes) : Pending :=
  ⟨c.exports, c.unsets⟩

/-- What is pending for aliases, beside the clearing of all of them. -/
def names (c : Changes) : Pending :=
  ⟨c.aliases, c.unaliases⟩

/-- Changes that list nothing twice and set nothing that they remove. -/
structure Normal (c : Changes) : Prop where
  vars : c.vars.Normal
  names : c.names.Normal

instance (c : Changes) : Decidable c.Normal :=
  decidable_of_iff (c.vars.Normal ∧ c.names.Normal) ⟨fun h => ⟨h.1, h.2⟩, fun h => ⟨h.1, h.2⟩⟩

/-- The aliases that changes start from when they follow others. -/
def namesBefore (a b : Changes) : Pending :=
  if b.clearAliases then ⟨∅, []⟩ else a.names

theorem vars_merge (a b : Changes) :
    (a.merge b).vars =
      b.unsets.foldl Pending.remove (b.exports.entries.foldl Pending.enter a.vars) :=
  rfl

theorem names_merge (a b : Changes) :
    (a.merge b).names =
      b.aliases.entries.foldl Pending.enter (b.unaliases.foldl Pending.remove (namesBefore a b)) :=
  rfl

theorem normal_namesBefore {a : Changes} (h : a.Normal) (b : Changes) :
    (namesBefore a b).Normal := by
  unfold namesBefore
  split
  · exact Pending.normal_nothing
  · exact h.names

/-- Whatever follows normal changes, the merged changes are normal. -/
theorem Normal.merge {a : Changes} (h : a.Normal) (b : Changes) : (a.merge b).Normal where
  vars := by
    rw [vars_merge]
    exact (h.vars.foldl_enter b.exports).foldl_remove b.unsets
  names := by
    rw [names_merge]
    exact ((normal_namesBefore h b).foldl_remove b.unaliases).foldl_enter b.aliases

theorem action_vars_merge {a : Changes} (h : a.Normal) (b : Changes) (key : String) :
    (a.merge b).vars.action key = (b.onVariable key).or (a.vars.action key) := by
  rw [vars_merge, Pending.action_foldl_remove, Pending.action_foldl_enter h.vars.nodup]
  unfold onVariable
  split <;> rfl

/-- Clearing forgets what was pending for an alias before. -/
theorem action_names_merge {a : Changes} (h : a.Normal) (b : Changes) (name : String) :
    (a.merge b).names.action name =
      (b.names.action name).or (if b.clearAliases then none else a.names.action name) := by
  have hBefore := (normal_namesBefore h b).foldl_remove b.unaliases
  have hKept : (namesBefore a b).action name =
      if b.clearAliases then none else a.names.action name := by
    unfold namesBefore
    split <;> rfl
  rw [names_merge, Pending.action_foldl_enter hBefore.nodup, Pending.action_foldl_remove, hKept]
  show _ = Option.or (match b.aliases.get? name with | some value => _ | none => _) _
  cases b.aliases.get? name with
  | some value => rfl
  | none => by_cases hListed : name ∈ b.unaliases <;> simp [names, hListed]

/-! ## Changes that list the same -/

/-- Changes that set the same values, list the same names and agree in all else. The order
in which names are listed does not count. -/
structure Same (a b : Changes) : Prop where
  exports : ∀ key, a.exports.get? key = b.exports.get? key
  unsets : ∀ key, key ∈ a.unsets ↔ key ∈ b.unsets
  aliases : ∀ name, a.aliases.get? name = b.aliases.get? name
  unaliases : ∀ name, name ∈ a.unaliases ↔ name ∈ b.unaliases
  clearAliases : a.clearAliases = b.clearAliases
  chdir : a.chdir = b.chdir
  sourceLines : a.sourceLines = b.sourceLines
  exitCode : a.exitCode = b.exitCode

/-- Normal changes with the same pending actions list the same. -/
theorem same_of_action {a b : Changes} (hA : a.Normal) (hB : b.Normal)
    (hVars : ∀ key, a.vars.action key = b.vars.action key)
    (hNames : ∀ name, a.names.action name = b.names.action name)
    (hClear : a.clearAliases = b.clearAliases) (hDir : a.chdir = b.chdir)
    (hLines : a.sourceLines = b.sourceLines) (hCode : a.exitCode = b.exitCode) :
    a.Same b where
  exports := by
    intro key
    show a.vars.set.get? key = b.vars.set.get? key
    rw [Pending.get?_eq_valueOf, Pending.get?_eq_valueOf, hVars]
  unsets := by
    intro key
    show key ∈ a.vars.removed ↔ key ∈ b.vars.removed
    rw [hA.vars.mem_removed_iff, hB.vars.mem_removed_iff, hVars]
  aliases := by
    intro name
    show a.names.set.get? name = b.names.set.get? name
    rw [Pending.get?_eq_valueOf, Pending.get?_eq_valueOf, hNames]
  unaliases := by
    intro name
    show name ∈ a.names.removed ↔ name ∈ b.names.removed
    rw [hA.names.mem_removed_iff, hB.names.mem_removed_iff, hNames]
  clearAliases := hClear
  chdir := hDir
  sourceLines := hLines
  exitCode := hCode

/-- How merges are grouped does not matter, as long as what stands on the left is normal. -/
theorem merge_assoc {a b : Changes} (hA : a.Normal) (hB : b.Normal) (c : Changes) :
    ((a.merge b).merge c).Same (a.merge (b.merge c)) := by
  refine same_of_action ((hA.merge b).merge c) (hA.merge _) (fun key => ?_) (fun name => ?_)
    (Bool.or_assoc _ _ _) ?_ (List.append_assoc _ _ _) ?_
  · rw [action_vars_merge (hA.merge b), action_vars_merge hA, action_vars_merge hA,
      onVariable_merge_of_nodup hB.vars.nodup, Option.or_assoc]
  · have hClear : (b.merge c).clearAliases = (b.clearAliases || c.clearAliases) := rfl
    rw [action_names_merge (hA.merge b), action_names_merge hA, action_names_merge hA,
      action_names_merge hB, hClear]
    -- what was pending before the last clearing is forgotten on both sides
    cases c.clearAliases with
    | true => simp
    | false => cases b.clearAliases <;> simp [Option.or_assoc]
  · show c.chdir.or (b.chdir.or a.chdir) = (c.chdir.or b.chdir).or a.chdir
    rw [Option.or_assoc]
  · show c.exitCode.or (b.exitCode.or a.exitCode) = (c.exitCode.or b.exitCode).or a.exitCode
    rw [Option.or_assoc]

theorem Same.refl (a : Changes) : a.Same a :=
  ⟨fun _ => rfl, fun _ => .rfl, fun _ => rfl, fun _ => .rfl, rfl, rfl, rfl, rfl⟩

theorem Same.trans {a b c : Changes} (h : a.Same b) (h' : b.Same c) : a.Same c where
  exports := fun key => (h.exports key).trans (h'.exports key)
  unsets := fun key => (h.unsets key).trans (h'.unsets key)
  aliases := fun name => (h.aliases name).trans (h'.aliases name)
  unaliases := fun name => (h.unaliases name).trans (h'.unaliases name)
  clearAliases := h.clearAliases.trans h'.clearAliases
  chdir := h.chdir.trans h'.chdir
  sourceLines := h.sourceLines.trans h'.sourceLines
  exitCode := h.exitCode.trans h'.exitCode

theorem Same.action_vars_eq {a b : Changes} (h : a.Same b) (key : String) :
    a.vars.action key = b.vars.action key :=
  Pending.action_congr (h.exports key) (h.unsets key)

theorem Same.action_names_eq {a b : Changes} (h : a.Same b) (name : String) :
    a.names.action name = b.names.action name :=
  Pending.action_congr (h.aliases name) (h.unaliases name)

/-- What is merged onto normal changes that list the same gives changes that list the same. -/
theorem Same.merge {a b : Changes} (h : a.Same b) (hA : a.Normal) (hB : b.Normal) (c : Changes) :
    (a.merge c).Same (b.merge c) := by
  refine same_of_action (hA.merge c) (hB.merge c) (fun key => ?_) (fun name => ?_) ?_ ?_ ?_ ?_
  · rw [action_vars_merge hA, action_vars_merge hB, h.action_vars_eq]
  · rw [action_names_merge hA, action_names_merge hB, h.action_names_eq]
  · show (a.clearAliases || c.clearAliases) = (b.clearAliases || c.clearAliases)
    rw [h.clearAliases]
  · show c.chdir.or a.chdir = c.chdir.or b.chdir
    rw [h.chdir]
  · show a.sourceLines ++ c.sourceLines = b.sourceLines ++ c.sourceLines
    rw [h.sourceLines]
  · show c.exitCode.or a.exitCode = c.exitCode.or b.exitCode
    rw [h.exitCode]

/-- Normal changes that list the same names list them in another order at most. -/
theorem Same.perm {a b : Changes} (h : a.Same b) (hA : a.Normal) (hB : b.Normal) :
    a.unsets.Perm b.unsets ∧ a.unaliases.Perm b.unaliases :=
  ⟨(List.perm_ext_iff_of_nodup hA.vars.nodup hB.vars.nodup).mpr h.unsets,
    (List.perm_ext_iff_of_nodup hA.names.nodup hB.names.nodup).mpr h.unaliases⟩

theorem normal_empty : Normal {} :=
  ⟨Pending.normal_nothing, Pending.normal_nothing⟩

theorem Normal.onVariable_eq {c : Changes} (h : c.Normal) (key : String) :
    c.onVariable key = c.vars.action key := by
  unfold onVariable Pending.action
  by_cases hListed : key ∈ c.unsets
  · have hUnset : c.exports.get? key = none := h.vars.unset key hListed
    simp [Changes.vars, hListed, hUnset]
  · cases hGet : c.exports.get? key <;> simp [Changes.vars, hListed, hGet]

/-- What a pipeline starts from is neutral. -/
theorem merge_empty_left {c : Changes} (h : c.Normal) : (merge {} c).Same c := by
  refine same_of_action (normal_empty.merge c) h (fun key => ?_) (fun name => ?_)
    (Bool.false_or _) Option.or_none rfl Option.or_none
  · rw [action_vars_merge normal_empty, h.onVariable_eq]
    exact Option.or_none
  · have hNothing : (if c.clearAliases then none else Pending.action (names {}) name) = none := by
      split <;> rfl
    rw [action_names_merge normal_empty, hNothing, Option.or_none]

/-! ## Changes that ask for nothing -/

theorem eq_empty_of_isEmpty {c : Changes} (h : c.isEmpty = true) : c = {} := by
  obtain ⟨⟨exports, hExports⟩, unsets, ⟨aliases, hAliases⟩, unaliases, clear, dir, lines, code⟩ := c
  simp only [isEmpty, Table.isEmpty, Bool.and_eq_true, List.isEmpty_iff, Bool.not_eq_true',
    Option.isNone_iff_eq_none] at h
  obtain ⟨⟨⟨⟨⟨⟨⟨rfl, rfl⟩, rfl⟩, rfl⟩, rfl⟩, rfl⟩, rfl⟩, rfl⟩ := h
  rfl

private theorem forall_onVariable_eq_none_iff (c : Changes) :
    (∀ key, c.onVariable key = none) ↔ c.exports.isEmpty = true ∧ c.unsets.isEmpty = true := by
  rw [Table.isEmpty_iff_get?, List.isEmpty_iff, List.eq_nil_iff_forall_not_mem, ← forall_and]
  refine forall_congr' fun key => ?_
  unfold onVariable
  by_cases hListed : key ∈ c.unsets <;> simp [hListed]

private theorem forall_onAlias_eq_none_iff (c : Changes) :
    (∀ name, c.onAlias name = none) ↔
      c.aliases.isEmpty = true ∧ c.unaliases.isEmpty = true ∧ c.clearAliases = false := by
  rw [Table.isEmpty_iff_get?, List.isEmpty_iff, List.eq_nil_iff_forall_not_mem]
  constructor
  · intro hNone
    have hEach : ∀ name, c.aliases.get? name = none ∧ c.clearAliases = false ∧
        name ∉ c.unaliases := by
      intro name
      have hName := hNone name
      unfold onAlias at hName
      cases hGet : c.aliases.get? name with
      | some value => simp [hGet] at hName
      | none => simpa [hGet] using hName
    exact ⟨fun name => (hEach name).1, fun name => (hEach name).2.2, (hEach "").2.1⟩
  · rintro ⟨hUnset, hKept, hClear⟩ name
    simp [onAlias, hUnset name, hKept name, hClear]

/-- **A value is empty** if it asks for nothing: no action on any name, no directory, no lines
and no status to leave with. -/
theorem isEmpty_iff (c : Changes) :
    c.isEmpty = true ↔ (∀ key, c.onVariable key = none) ∧ (∀ name, c.onAlias name = none) ∧
      c.chdir = none ∧ c.sourceLines = [] ∧ c.exitCode = none := by
  rw [forall_onVariable_eq_none_iff, forall_onAlias_eq_none_iff]
  simp only [isEmpty, Bool.and_eq_true, Bool.not_eq_true', Option.isNone_iff_eq_none,
    List.isEmpty_iff, and_assoc]

/-- Merging neither loses nor makes up a wish for a variable. -/
theorem onVariable_merge_eq_none_iff (a b : Changes) (key : String) :
    (a.merge b).onVariable key = none ↔ a.onVariable key = none ∧ b.onVariable key = none := by
  match hLater : b.onVariable key with
  | none => simp [onVariable_merge_none hLater]
  | some .remove => simp [onVariable_merge_remove hLater]
  | some (.set value) =>
      rw [onVariable_merge_set hLater]
      split <;> simp

theorem isEmpty_merge_iff (a b : Changes) :
    (a.merge b).isEmpty = true ↔ a.isEmpty = true ∧ b.isEmpty = true := by
  have hDir : (a.merge b).chdir = b.chdir.or a.chdir := rfl
  have hLines : (a.merge b).sourceLines = a.sourceLines ++ b.sourceLines := rfl
  have hCode : (a.merge b).exitCode = b.exitCode.or a.exitCode := rfl
  simp only [isEmpty_iff, onVariable_merge_eq_none_iff, onAlias_merge, hDir, hLines, hCode,
    Option.or_eq_none_iff, List.append_eq_nil_iff, forall_and]
  tauto

/-! ## The later action wins, with an exception -/

theorem onVariable_eq_set_iff {c : Changes} {key value : String} :
    c.onVariable key = some (.set value) ↔ key ∉ c.unsets ∧ c.exports.get? key = some value := by
  unfold onVariable
  by_cases hListed : key ∈ c.unsets <;> simp [hListed]

theorem onVariable_eq_remove_iff {c : Changes} {key : String} :
    c.onVariable key = some .remove ↔ key ∈ c.unsets := by
  unfold onVariable
  by_cases hListed : key ∈ c.unsets <;> simp [hListed]

/-- On one variable, merged changes do what the one and then the other do unless the later
ones set it and the earlier ones list it for removal more than once. -/
theorem after_onVariable_merge_iff (a b : Changes) (key : String) (before : Option String) :
    Action.after ((a.merge b).onVariable key) before =
        Action.after ((b.onVariable key).or (a.onVariable key)) before ↔
      (key ∈ b.exports.keys → key ∉ b.unsets → a.unsets.count key ≤ 1) := by
  match hLater : b.onVariable key with
  | none =>
      rw [onVariable_merge_none hLater, Option.none_or]
      refine ⟨fun _ hSet hKept => ?_, fun _ => rfl⟩
      obtain ⟨value, hValue⟩ := Option.isSome_iff_exists.mp (Table.mem_keys_iff.mp hSet)
      rw [onVariable_eq_set_iff.mpr ⟨hKept, hValue⟩] at hLater
      cases hLater
  | some .remove =>
      rw [onVariable_merge_remove hLater, Option.some_or]
      exact ⟨fun _ _ hKept => absurd (onVariable_eq_remove_iff.mp hLater) hKept, fun _ => rfl⟩
  | some (.set value) =>
      obtain ⟨hKept, hValue⟩ := onVariable_eq_set_iff.mp hLater
      have hSet : key ∈ b.exports.keys := by
        rw [Table.mem_keys_iff, Table.contains, hValue]
        rfl
      rw [onVariable_merge_set hLater, Option.some_or]
      by_cases hTwice : 1 < a.unsets.count key
      · rw [if_pos hTwice]
        constructor
        · intro hSame
          cases hSame
        · intro hOnce
          exact absurd (hOnce hSet hKept) (Nat.not_le_of_lt hTwice)
      · rw [if_neg hTwice]
        exact ⟨fun _ _ _ => Nat.le_of_not_lt hTwice, fun _ => rfl⟩

end Changes

namespace Session

open Changes

variable {σ : Type}

/--
**Merged changes and changes in turn.** Let neither of two changes ask for another
directory or for lines to run. Making them merged, and making the one and then the other,
both succeed and give the same aliases and the same exit request, in every session. They
give the same variables exactly if no variable that the later changes set and do not remove
is listed for removal more than once by the earlier ones.
-/
theorem apply_merge_iff {a b : Changes} (hA : a.chdir = none ∧ a.sourceLines = [])
    (hB : b.chdir = none ∧ b.sourceLines = []) (shell : Shell σ) (s : Session σ) :
    ∃ merged first second, apply shell (a.merge b) s = .ok none merged ∧
      apply shell a s = .ok none first ∧ apply shell b first = .ok none second ∧
      (∀ name, merged.aliases.get? name = second.aliases.get? name) ∧
      ((∀ key, merged.env.get? key = second.env.get? key) ↔
        ∀ key ∈ b.exports.keys, key ∉ b.unsets → a.unsets.count key ≤ 1) ∧
      merged.exitRequested = second.exitRequested ∧ merged.exitCode = second.exitCode := by
  have hBoth : ∀ c ∈ [a] ++ [b], c.chdir = none ∧ c.sourceLines = [] := by
    simp [hA, hB]
  obtain ⟨hDir, hLines⟩ := ((Gathered.single a).merge (.single b)).plain hBoth
  obtain ⟨merged, hMerged, hMade⟩ := made_apply shell hDir hLines s
  obtain ⟨first, hFirst, hMadeFirst⟩ := made_apply shell hA.1 hA.2 s
  obtain ⟨second, hSecond, hMadeSecond⟩ := made_apply shell hB.1 hB.2 first
  have hInTurn := hMadeFirst.trans hMadeSecond
  refine ⟨merged, first, second, hMerged, hFirst, hSecond, fun name => ?_, ?_, ?_, ?_⟩
  · rw [hMade.aliases, hInTurn.aliases, onAlias_merge]
  · refine forall_congr' fun key => ?_
    rw [hMade.env, hInTurn.env]
    exact after_onVariable_merge_iff a b key _
  · rw [hMade.exitRequested, hInTurn.exitRequested]
    rfl
  · rw [hMade.exitCode, hInTurn.exitCode]
    rfl

/-- Variables listed for removal, one of them twice, and an alias. -/
def listedTwice : Changes :=
  { unsets := ["A", "B", "A"], aliases := .ofList [("ll", "ls -l")] }

/-- Both variables set, and all aliases but a new one cleared. -/
def setAgain : Changes :=
  { exports := .ofList [("A", "1"), ("B", "2")], clearAliases := true,
    aliases := .ofList [("l", "ls")] }

theorem apply_merge_iff_listedTwice :
    (listedTwice.chdir = none ∧ listedTwice.sourceLines = []) ∧
    (setAgain.chdir = none ∧ setAgain.sourceLines = []) ∧
    ∃ merged first second,
      apply Cli.shell (listedTwice.merge setAgain) firstSession = .ok none merged ∧
      apply Cli.shell listedTwice firstSession = .ok none first ∧
      apply Cli.shell setAgain first = .ok none second ∧
      (∀ name, merged.aliases.get? name = second.aliases.get? name) ∧
      ¬ ∀ key, merged.env.get? key = second.env.get? key := by
  have hFirst : listedTwice.chdir = none ∧ listedTwice.sourceLines = [] := by decide
  have hLater : setAgain.chdir = none ∧ setAgain.sourceLines = [] := by decide
  obtain ⟨merged, first, second, hMerged, hOne, hTwo, hAliases, hIff, -⟩ :=
    apply_merge_iff hFirst hLater Cli.shell firstSession
  refine ⟨hFirst, hLater, merged, first, second, hMerged, hOne, hTwo, hAliases, ?_⟩
  rw [hIff]
  decide

/-- Making changes that ask for nothing leaves a note of it in the log and all else as it
was. -/
theorem apply_of_isEmpty (shell : Shell σ) {c : Changes} (h : c.isEmpty = true)
    (s : Session σ) :
    apply shell c s = .ok none { s with machine := s.machine.log (.applied c) } := by
  obtain rfl := eq_empty_of_isEmpty h
  rfl

end Session

namespace Changes

/--
**Normal changes are a monoid** under merging. What is merged onto normal changes gives
normal changes; grouping does not matter, up to the order in which names are listed; and
the empty value is neutral on both sides. Merged changes are empty exactly if both parts
are, and making empty changes alters nothing in a session but its log.
-/
theorem merge_monoid :
    (∀ a b : Changes, a.Normal → (a.merge b).Normal) ∧
    (∀ a b c : Changes, a.Normal → b.Normal →
      ((a.merge b).merge c).Same (a.merge (b.merge c))) ∧
    (∀ a : Changes, a.merge {} = a) ∧
    (∀ a : Changes, a.Normal → (merge {} a).Same a) ∧
    (∀ a b : Changes, (a.merge b).isEmpty = true ↔ a.isEmpty = true ∧ b.isEmpty = true) ∧
    ∀ (σ : Type) (shell : Shell σ) (c : Changes) (s : Session σ), c.isEmpty = true →
      Session.apply shell c s = .ok none { s with machine := s.machine.log (.applied c) } := by
  refine ⟨fun a b hA => hA.merge b, fun a b c hA hB => merge_assoc hA hB c, merge_empty,
    fun a hA => merge_empty_left hA, isEmpty_merge_iff, ?_⟩
  intro σ shell c s hEmpty
  exact Session.apply_of_isEmpty shell hEmpty s

/-- Removes a variable and defines an alias. -/
def removing : Changes :=
  { unsets := ["A"], aliases := .ofList [("ll", "ls -l")] }

/-- Sets the variable and removes the alias. -/
def setting : Changes :=
  { exports := .ofList [("A", "1")], unaliases := ["ll"] }

/-- Removes variables, one of them twice, clears the aliases and defines one that it removes. -/
def clearing : Changes :=
  { unsets := ["B", "A", "B"], clearAliases := true, unaliases := ["l"],
    aliases := .ofList [("l", "ls")] }

/-- Grouping decides the order of a list here, and nothing else. -/
theorem merge_monoid_regrouped :
    removing.Normal ∧ setting.Normal ∧ ¬ clearing.Normal ∧ (removing.merge clearing).Normal ∧
      ((removing.merge setting).merge clearing).Same (removing.merge (setting.merge clearing)) ∧
      (removing.merge setting).merge clearing ≠ removing.merge (setting.merge clearing) ∧
      (merge {} setting).Same setting ∧
      isEmpty {} = true ∧ Session.apply Cli.shell {} firstSession =
        .ok none { firstSession with machine := firstSession.machine.log (.applied {}) } := by
  have hRemoving : removing.Normal := by decide
  have hSetting : setting.Normal := by decide
  obtain ⟨hNormal, hAssoc, -, hNeutral, -, hApply⟩ := merge_monoid
  exact ⟨hRemoving, hSetting, by decide, hNormal removing clearing hRemoving,
    hAssoc removing setting clearing hRemoving hSetting, by decide, hNeutral setting hSetting,
    rfl, hApply FileTree Cli.shell {} firstSession rfl⟩

end Changes

end MemShell
