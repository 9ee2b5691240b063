import Mathlib.Data.List.Induction
import MemShell.Registry

/-!
# What a filled registry holds

A registry is filled by calls: a builtin is added under one name, a command is registered
under several, a program is installed at a path. Calls may come in any order and take each
other's names, so what a registry holds under a name depends on the calls that were made
for this name, and among these on the last one.

A call is kept apart from its entry here (`Registration`), and the entries are told apart
by the number of their call (`Registry.built`). What is proved of a registry then names the
call that an entry came with, whatever the entries are, and the same entry may have come
with two calls.

## Main results

* `exists_mem_of_get?` — a builtin of a list of commands is one of the list.
* `get?_builtins_built_iff`, `get?_programs_built_iff` — the last call for a name and the last
  call for a path count.
* `isBuiltin_built_iff`, `contains_programs_built_iff` — what is registered at all.
* `find?_names` — a catalogue finds what its registry finds.
-/

namespace MemShell

/-! ## The last of its kind -/

/-- Entry `i` of a list has the property and no later one has it. -/
def IsLast {α : Type} (P : α → Prop) (xs : List α) (i : Nat) : Prop :=
  (∃ x, xs[i]? = some x ∧ P x) ∧ ∀ j x, i < j → xs[j]? = some x → ¬ P x

section Last

variable {α : Type} {P : α → Prop} {xs : List α} {x : α} {i : Nat}

theorem IsLast.lt_length (h : IsLast P xs i) : i < xs.length := by
  obtain ⟨x, hGet, -⟩ := h.1
  exact (List.getElem?_eq_some_iff.mp hGet).1

/-- One more entry is the last of its kind, or it is none of the kind. -/
theorem isLast_concat_iff :
    IsLast P (xs ++ [x]) i ↔ (P x ∧ i = xs.length) ∨ (¬ P x ∧ IsLast P xs i) := by
  have hAt : ∀ {j : Nat}, j < xs.length → (xs ++ [x])[j]? = xs[j]? :=
    fun hj => List.getElem?_append_left hj
  have hEnd : (xs ++ [x])[xs.length]? = some x := List.getElem?_concat_length
  have hBound : ∀ {j : Nat} {y : α}, (xs ++ [x])[j]? = some y → j < xs.length ∨ j = xs.length := by
    intro j y hGet
    have hLt := (List.getElem?_eq_some_iff.mp hGet).1
    rw [List.length_append, List.length_singleton] at hLt
    omega
  constructor
  · rintro ⟨⟨y, hGet, hHas⟩, hLater⟩
    rcases hBound hGet with hLt | rfl
    · refine .inr ⟨hLater _ x hLt hEnd, ⟨y, (hAt hLt).symm.trans hGet, hHas⟩, ?_⟩
      intro j z hj hz
      have hjLt := (List.getElem?_eq_some_iff.mp hz).1
      exact hLater j z hj ((hAt hjLt).trans hz)
    · rw [hEnd] at hGet
      obtain rfl := Option.some.inj hGet
      exact .inl ⟨hHas, rfl⟩
  · rintro (⟨hHas, rfl⟩ | ⟨hNot, hLast⟩)
    · refine ⟨⟨x, hEnd, hHas⟩, fun j y hj hGet => ?_⟩
      rcases hBound hGet with hLt | rfl <;> omega
    · obtain ⟨y, hGet, hHas⟩ := hLast.1
      refine ⟨⟨y, (hAt hLast.lt_length).trans hGet, hHas⟩, fun j z hj hz => ?_⟩
      rcases hBound hz with hLt | rfl
      · exact hLast.2 j z hj ((hAt hLt).symm.trans hz)
      · rw [hEnd] at hz
        obtain rfl := Option.some.inj hz
        exact hNot

/-- Some entry has the property exactly if one is the last that has it. -/
theorem exists_isLast_iff : (∃ i, IsLast P xs i) ↔ ∃ x ∈ xs, P x := by
  induction xs using List.reverseRecOn with
  | nil => simp [IsLast]
  | append_singleton xs x ih =>
      simp only [isLast_concat_iff, exists_or, exists_and_left, exists_eq, and_true, ih,
        List.mem_append, List.mem_singleton]
      by_cases hHas : P x
      · simp only [hHas, true_or, true_iff]
        exact ⟨x, .inr rfl, hHas⟩
      · simp only [hHas, false_or, not_false_eq_true, true_and]
        constructor
        · exact fun ⟨y, hMem, hY⟩ => ⟨y, .inl hMem, hY⟩
        · rintro ⟨y, hMem | rfl, hY⟩
          · exact ⟨y, hMem, hY⟩
          · exact absurd hY hHas

end Last

/-! ## Calls -/

/-- A call that fills a registry, without the entry that it brings. -/
inductive Registration where
  /-- A builtin under one name. -/
  | add (name : String)
  /-- A builtin under several names. -/
  | builtin (names : List String)
  /-- A program at a path. -/
  | install (path : String)
deriving DecidableEq, Repr

namespace Registration

/-- The registry after the call. A relative path is refused, and nothing is changed. -/
def fill {α : Type} (r : Registry α) (entry : α) : Registration → Registry α
  | add name => r.add name entry
  | builtin names => r.addAll names entry
  | install path =>
      match r.install path entry with
      | .ok (_, r') => r'
      | .error _ => r

/-- The call enters a builtin under this name. -/
def Enters (name : String) : Registration → Prop
  | add name' => name' = name
  | builtin names => name ∈ names
  | install _ => False

/-- The call puts a program at this path. -/
def Installs (path : String) : Registration → Prop
  | install path' => (Path.normalize path').startsWith "/" = true ∧ Path.normalize path' = path
  | _ => False

instance (name : String) : (c : Registration) → Decidable (c.Enters name)
  | add name' => inferInstanceAs (Decidable (name' = name))
  | builtin names => inferInstanceAs (Decidable (name ∈ names))
  | install _ => inferInstanceAs (Decidable False)

instance (path : String) : (c : Registration) → Decidable (c.Installs path)
  | add _ => inferInstanceAs (Decidable False)
  | builtin _ => inferInstanceAs (Decidable False)
  | install _ => inferInstanceAs (Decidable (_ ∧ _))

/-- No call both enters a builtin and puts a program somewhere. -/
theorem not_installs_of_enters {c : Registration} {name : String} (h : c.Enters name)
    (path : String) : ¬ c.Installs path := by
  intro hInstalls
  cases c with
  | add name' => exact hInstalls
  | builtin names => exact hInstalls
  | install path' => exact h

theorem not_isLast_installs {calls : List Registration} {name : String} {i : Nat}
    (h : IsLast (Enters name) calls i) (path : String) : ¬ IsLast (Installs path) calls i := by
  rintro ⟨⟨c, hGet, hInstalls⟩, -⟩
  obtain ⟨⟨c', hGet', hEnters⟩, -⟩ := h
  obtain rfl := Option.some.inj (hGet.symm.trans hGet')
  exact not_installs_of_enters hEnters path hInstalls

end Registration

namespace Registry

variable {α β : Type} {r : Registry α}

theorem get?_builtins_addAll (names : List String) (entry : α) (name : String) :
    ∀ r : Registry α, (r.addAll names entry).builtins.get? name =
      if name ∈ names then some entry else r.builtins.get? name := by
  induction names with
  | nil => intro r; rfl
  | cons first names ih =>
      intro r
      show ((r.add first entry).addAll names entry).builtins.get? name = _
      rw [ih, add, Table.get?_insert]
      by_cases hMem : name ∈ names
      · simp [hMem]
      · simp only [hMem, if_false, List.mem_cons, or_false]
        by_cases hFirst : first = name
        · simp [hFirst]
        · simp [hFirst, Ne.symm hFirst]

theorem programs_addAll (names : List String) (entry : α) :
    ∀ r : Registry α, (r.addAll names entry).programs = r.programs := by
  induction names with
  | nil => exact fun r => rfl
  | cons first names ih => exact fun r => ih (r.add first entry)

/-- A builtin of a list of commands is one of the list. -/
theorem exists_mem_of_get? (entries : List (List String × α)) {name : String} {entry : α} :
    ∀ {r : Registry α}, r.builtins.get? name = none →
      (entries.foldl (fun r (names, entry) => r.addAll names entry) r).builtins.get? name =
        some entry → ∃ e ∈ entries, name ∈ e.1 ∧ e.2 = entry := by
  induction entries using List.reverseRecOn with
  | nil =>
      intro r hNone hGet
      rw [List.foldl_nil, hNone] at hGet
      cases hGet
  | append_singleton entries last ih =>
      intro r hNone hGet
      rw [List.foldl_append, List.foldl_cons, List.foldl_nil, get?_builtins_addAll] at hGet
      by_cases hLast : name ∈ last.1
      · rw [if_pos hLast] at hGet
        exact ⟨last, by simp, hLast, Option.some.inj hGet⟩
      · rw [if_neg hLast] at hGet
        obtain ⟨e, hMem, hNames, hEntry⟩ := ih hNone hGet
        exact ⟨e, List.mem_append_left _ hMem, hNames, hEntry⟩

/-! ## A filled registry -/

theorem get?_builtins_fill (r : Registry α) (entry : α) (c : Registration) (name : String) :
    (c.fill r entry).builtins.get? name =
      if c.Enters name then some entry else r.builtins.get? name := by
  cases c with
  | add name' => exact Table.get?_insert r.builtins name' name entry
  | builtin names => exact get?_builtins_addAll names entry name r
  | install path =>
      rw [if_neg (show ¬ (Registration.install path).Enters name from id)]
      unfold Registration.fill install
      by_cases hRoot : (Path.normalize path).startsWith "/" = true <;> simp [hRoot]

theorem get?_programs_fill (r : Registry α) (entry : α) (c : Registration) (path : String) :
    (c.fill r entry).programs.get? path =
      if c.Installs path then some entry else r.programs.get? path := by
  cases c with
  | add name => rfl
  | builtin names => exact congrArg (Table.get? · path) (programs_addAll names entry r)
  | install path' =>
      unfold Registration.fill install
      by_cases hRoot : (Path.normalize path').startsWith "/" = true
      · simp [hRoot, Registration.Installs, Table.get?_insert]
      · simp [hRoot, Registration.Installs]

/-- The registry after calls, of which call number `i` brings the entry `entry i`. -/
def built (calls : List Registration) (entry : Nat → α) : Registry α :=
  calls.zipIdx.foldl (fun r c => c.1.fill r (entry c.2)) {}

theorem built_concat (calls : List Registration) (c : Registration) (entry : Nat → α) :
    built (calls ++ [c]) entry = c.fill (built calls entry) (entry calls.length) := by
  simp [built, List.zipIdx_append]

/-- **The last call for a name counts.** -/
theorem get?_builtins_built_iff {calls : List Registration} {entry : Nat → α} {name : String}
    {a : α} : (built calls entry).builtins.get? name = some a ↔
      ∃ i, IsLast (Registration.Enters name) calls i ∧ entry i = a := by
  induction calls using List.reverseRecOn with
  | nil => simp [built, IsLast, show (({} : Registry α).builtins.get? name) = none from rfl]
  | append_singleton calls c ih =>
      rw [built_concat, get?_builtins_fill]
      by_cases hLast : c.Enters name <;> simp [hLast, isLast_concat_iff, ih]

/-- **The last call for a path counts.** -/
theorem get?_programs_built_iff {calls : List Registration} {entry : Nat → α} {path : String}
    {a : α} : (built calls entry).programs.get? path = some a ↔
      ∃ i, IsLast (Registration.Installs path) calls i ∧ entry i = a := by
  induction calls using List.reverseRecOn with
  | nil => simp [built, IsLast, show (({} : Registry α).programs.get? path) = none from rfl]
  | append_singleton calls c ih =>
      rw [built_concat, get?_programs_fill]
      by_cases hLast : c.Installs path <;> simp [hLast, isLast_concat_iff, ih]

theorem isBuiltin_built_iff {calls : List Registration} {entry : Nat → α} {name : String} :
    (built calls entry).isBuiltin name = true ↔ ∃ c ∈ calls, c.Enters name := by
  rw [isBuiltin, Table.contains, Option.isSome_iff_exists, ← exists_isLast_iff]
  simp only [get?_builtins_built_iff]
  constructor
  · rintro ⟨_, i, hLast, -⟩
    exact ⟨i, hLast⟩
  · rintro ⟨i, hLast⟩
    exact ⟨_, i, hLast, rfl⟩

theorem contains_programs_built_iff {calls : List Registration} {entry : Nat → α}
    {path : String} :
    (built calls entry).programs.contains path = true ↔ ∃ c ∈ calls, c.Installs path := by
  rw [Table.contains, Option.isSome_iff_exists, ← exists_isLast_iff]
  simp only [get?_programs_built_iff]
  constructor
  · rintro ⟨_, i, hLast, -⟩
    exact ⟨i, hLast⟩
  · rintro ⟨i, hLast⟩
    exact ⟨_, i, hLast, rfl⟩

/-- Programs are kept under absolute paths. -/
theorem startsWith_of_contains_programs {calls : List Registration} {entry : Nat → α}
    {path : String} (h : (built calls entry).programs.contains path = true) :
    path.startsWith "/" = true := by
  obtain ⟨c, -, hInstalls⟩ := contains_programs_built_iff.mp h
  cases c with
  | add name => exact absurd hInstalls id
  | builtin names => exact absurd hInstalls id
  | install path' => exact hInstalls.2 ▸ hInstalls.1

/-! ## Catalogues -/

theorem isBuiltin_names (r : Registry α) (name : String) :
    r.names.isBuiltin name = r.isBuiltin name :=
  Table.contains_map r.builtins _ name

/-- A catalogue finds what its registry finds. -/
theorem find?_names (r : Registry α) (env : Table String String) (name : String) :
    r.names.find? env name = r.find? env name := by
  have hSame : r.names.programs.contains = r.programs.contains :=
    funext fun path => Table.contains_map r.programs _ path
  unfold find?
  rw [hSame]

end Registry

end MemShell
