/-!
# Tables that remember the order of their keys

The environment, the aliases and the files of a store are tables from names to
values. Listings and printed values show their entries in the order in which
the keys were first entered, so a table is a list of entries rather than a
hash map. Entering a key again changes its value and keeps its place; entering
it after it was removed puts it last.

That a key occurs once is part of the type. It is what makes `get?` the whole
meaning of a table up to order: two tables with the same `get?` differ only in
the order of their entries.

## Main results

* `get?_insert`, `get?_erase`, `get?_map`, `get?_empty` — a table as a partial function.
* `mem_keys_iff` — the keys are where `get?` is defined.
* `get?_eq_some_iff`, `get?_congr_of_perm` — the order of the entries does not matter for `get?`.
* `size_erase_lt` — removing a known key makes a table smaller, which is the
  measure of the expansion of aliases.
-/

namespace MemShell

/-- Entries with distinct keys, in the order in which the keys were entered. -/
structure Table (κ : Type u) (α : Type v) where
  /-- Builds a table from entries with distinct keys. -/
  mk ::
  entries : List (κ × α)
  /-- No key occurs twice. -/
  nodup : (entries.map Prod.fst).Nodup

namespace Table

variable {κ : Type u} {α : Type v} {β : Type w}

theorem ext {s t : Table κ α} (h : s.entries = t.entries) : s = t := by
  cases s
  cases t
  simp_all

def empty : Table κ α :=
  ⟨[], List.nodup_nil⟩

instance : EmptyCollection (Table κ α) := ⟨empty⟩

instance : Inhabited (Table κ α) := ⟨empty⟩

instance [DecidableEq κ] [DecidableEq α] : DecidableEq (Table κ α) := fun s t =>
  if h : s.entries = t.entries then .isTrue (ext h)
  else .isFalse fun hEq => h (congrArg entries hEq)

def keys (t : Table κ α) : List κ :=
  t.entries.map Prod.fst

def size (t : Table κ α) : Nat :=
  t.entries.length

def isEmpty (t : Table κ α) : Bool :=
  t.entries.isEmpty

/-! ## Lists of entries -/

/-- The value of `key` in a list of entries, the first one if there are several. -/
def lookup [DecidableEq κ] (key : κ) : List (κ × α) → Option α
  | [] => none
  | (k, a) :: rest => if k = key then some a else lookup key rest

/-- Changes the value of `key`, or puts the entry last. -/
def enter [DecidableEq κ] (key : κ) (value : α) : List (κ × α) → List (κ × α)
  | [] => [(key, value)]
  | (k, a) :: rest => if k = key then (k, value) :: rest else (k, a) :: enter key value rest

theorem mem_keys_enter [DecidableEq κ] {key k : κ} {value : α} {es : List (κ × α)} :
    k ∈ (enter key value es).map Prod.fst ↔ k = key ∨ k ∈ es.map Prod.fst := by
  induction es with
  | nil => simp [enter]
  | cons e es ih =>
      obtain ⟨k', a⟩ := e
      by_cases hKey : k' = key
      · simp [enter, hKey]
      · simp only [enter, if_neg hKey, List.map_cons, List.mem_cons, ih]
        exact or_left_comm

theorem nodup_enter [DecidableEq κ] {key : κ} {value : α} {es : List (κ × α)}
    (h : (es.map Prod.fst).Nodup) : ((enter key value es).map Prod.fst).Nodup := by
  induction es with
  | nil => simp [enter]
  | cons e es ih =>
      obtain ⟨k, a⟩ := e
      have hSplit := List.nodup_cons.mp h
      by_cases hKey : k = key
      · simpa [enter, hKey] using h
      · simp only [enter, if_neg hKey, List.map_cons, List.nodup_cons]
        refine ⟨fun hMem => ?_, ih hSplit.2⟩
        rcases mem_keys_enter.mp hMem with hEq | hMem
        · exact hKey hEq
        · exact hSplit.1 hMem

theorem lookup_enter [DecidableEq κ] (key k : κ) (value : α) (es : List (κ × α)) :
    lookup k (enter key value es) = if key = k then some value else lookup k es := by
  induction es with
  | nil => simp [enter, lookup]
  | cons e es ih =>
      obtain ⟨k', a⟩ := e
      by_cases hKey : k' = key
      · subst hKey
        by_cases hk : k' = k <;> simp [enter, lookup, hk]
      · simp only [enter, if_neg hKey, lookup, ih]
        by_cases hk : k' = k
        · have hNe : key ≠ k := fun h => hKey (hk.trans h.symm)
          simp [hk, hNe]
        · simp [hk]

theorem lookup_filter [DecidableEq κ] (keep : κ → Bool) (k : κ) (es : List (κ × α)) :
    lookup k (es.filter fun e => keep e.1) = if keep k then lookup k es else none := by
  induction es with
  | nil => simp [lookup]
  | cons e es ih =>
      obtain ⟨k', a⟩ := e
      by_cases hk : k' = k
      · subst hk
        by_cases hKeep : keep k' = true
        · simp [lookup, hKeep]
        · simp [hKeep, ih]
      · by_cases hKeep : keep k' = true <;> simp [lookup, hKeep, ih, hk]

theorem lookup_map [DecidableEq κ] (f : α → β) (k : κ) (es : List (κ × α)) :
    lookup k (es.map fun e => (e.1, f e.2)) = (lookup k es).map f := by
  induction es with
  | nil => rfl
  | cons e es ih =>
      obtain ⟨k', a⟩ := e
      by_cases hk : k' = k <;> simp [lookup, hk, ih]

theorem lookup_eq_none_iff [DecidableEq κ] {k : κ} {es : List (κ × α)} :
    lookup k es = none ↔ k ∉ es.map Prod.fst := by
  induction es with
  | nil => simp [lookup]
  | cons e es ih =>
      obtain ⟨k', a⟩ := e
      by_cases hk : k' = k
      · simp [lookup, hk]
      · simp [lookup, hk, ih, Ne.symm hk]

/-! ## Operations -/

def get? [DecidableEq κ] (t : Table κ α) (key : κ) : Option α :=
  lookup key t.entries

def contains [DecidableEq κ] (t : Table κ α) (key : κ) : Bool :=
  (t.get? key).isSome

/-- Gives a key a value; a new key goes last. -/
def insert [DecidableEq κ] (t : Table κ α) (key : κ) (value : α) : Table κ α :=
  ⟨enter key value t.entries, nodup_enter t.nodup⟩

/-- The entries whose key passes a test. -/
def filterKeys (t : Table κ α) (keep : κ → Bool) : Table κ α :=
  ⟨t.entries.filter fun e => keep e.1, t.nodup.sublist (List.filter_sublist.map Prod.fst)⟩

def erase [DecidableEq κ] (t : Table κ α) (key : κ) : Table κ α :=
  t.filterKeys (· ≠ key)

/-- The table with the entries of a list entered one after the other. -/
def insertMany [DecidableEq κ] (t : Table κ α) (es : List (κ × α)) : Table κ α :=
  es.foldl (fun t e => t.insert e.1 e.2) t

def eraseMany [DecidableEq κ] (t : Table κ α) (ks : List κ) : Table κ α :=
  ks.foldl erase t

/-- The table of a list of entries; of equal keys the last value counts. -/
def ofList [DecidableEq κ] (es : List (κ × α)) : Table κ α :=
  (empty : Table κ α).insertMany es

/-- The table with every value changed by a function. -/
def map (t : Table κ α) (f : α → β) : Table κ β :=
  ⟨t.entries.map fun e => (e.1, f e.2), by
    simpa [List.map_map, Function.comp_def] using t.nodup⟩

/-- The entries sorted by key. -/
def sorted (t : Table String α) : List (String × α) :=
  t.entries.mergeSort fun a b => decide (a.1 ≤ b.1)

/-! ## A table as a partial function -/

@[simp] theorem get?_empty [DecidableEq κ] (key : κ) : (empty : Table κ α).get? key = none :=
  rfl

theorem get?_insert [DecidableEq κ] (t : Table κ α) (key k : κ) (value : α) :
    (t.insert key value).get? k = if key = k then some value else t.get? k :=
  lookup_enter key k value t.entries

@[simp] theorem get?_insert_self [DecidableEq κ] (t : Table κ α) (key : κ) (value : α) :
    (t.insert key value).get? key = some value := by
  simp [get?_insert]

theorem get?_filterKeys [DecidableEq κ] (t : Table κ α) (keep : κ → Bool) (k : κ) :
    (t.filterKeys keep).get? k = if keep k then t.get? k else none :=
  lookup_filter keep k t.entries

theorem get?_erase [DecidableEq κ] (t : Table κ α) (key k : κ) :
    (t.erase key).get? k = if k = key then none else t.get? k := by
  by_cases h : k = key <;> simp [erase, get?_filterKeys, h]

theorem get?_map [DecidableEq κ] (t : Table κ α) (f : α → β) (k : κ) :
    (t.map f).get? k = (t.get? k).map f :=
  lookup_map f k t.entries

/-- Changing values keeps the keys. -/
theorem contains_map [DecidableEq κ] (t : Table κ α) (f : α → β) (k : κ) :
    (t.map f).contains k = t.contains k := by
  simp [contains, get?_map]

theorem mem_keys_iff [DecidableEq κ] {t : Table κ α} {key : κ} :
    key ∈ t.keys ↔ t.contains key = true := by
  have h : lookup key t.entries = none ↔ key ∉ t.entries.map Prod.fst := lookup_eq_none_iff
  simp only [contains, get?, keys]
  cases hCase : lookup key t.entries <;> simp_all

theorem mem_entries_of_get? [DecidableEq κ] {t : Table κ α} {key : κ} {value : α}
    (h : t.get? key = some value) : (key, value) ∈ t.entries := by
  rw [get?] at h
  generalize t.entries = es at h ⊢
  induction es with
  | nil => cases h
  | cons e es ih =>
      obtain ⟨k, a⟩ := e
      rw [lookup] at h
      split at h
      · rename_i hKey
        cases h
        rw [hKey]
        exact List.mem_cons_self
      · exact List.mem_cons_of_mem _ (ih h)

/-- What a table has for a key is what its entries say. -/
theorem get?_eq_some_iff [DecidableEq κ] {t : Table κ α} {key : κ} {value : α} :
    t.get? key = some value ↔ (key, value) ∈ t.entries := by
  refine ⟨mem_entries_of_get?, fun hMem => ?_⟩
  have hNodup := t.nodup
  rw [get?]
  generalize t.entries = es at hMem hNodup ⊢
  induction es with
  | nil => cases hMem
  | cons e es ih =>
      obtain ⟨k, a⟩ := e
      have hSplit := List.nodup_cons.mp hNodup
      rcases List.mem_cons.mp hMem with hSame | hRest
      · cases hSame
        rw [lookup, if_pos rfl]
      · have hOther : k ≠ key := by
          rintro rfl
          exact hSplit.1 (List.mem_map.mpr ⟨(k, value), hRest, rfl⟩)
        rw [lookup, if_neg hOther, ih hRest hSplit.2]

/-- The order of the entries does not matter for what a table holds. -/
theorem get?_congr_of_perm [DecidableEq κ] {t u : Table κ α} (h : t.entries.Perm u.entries)
    (key : κ) : t.get? key = u.get? key := by
  apply Option.ext
  intro value
  rw [get?_eq_some_iff, get?_eq_some_iff, h.mem_iff]

/-! ## Size -/

/-- Removing a known key makes a table smaller. -/
theorem size_erase_lt [DecidableEq κ] {t : Table κ α} {key : κ} {value : α}
    (h : t.get? key = some value) : (t.erase key).size < t.size := by
  simp only [get?] at h
  simp only [erase, filterKeys, size]
  generalize t.entries = es at h ⊢
  induction es with
  | nil => simp [lookup] at h
  | cons e es ih =>
      obtain ⟨k, a⟩ := e
      by_cases hKey : k = key
      · have hLe := List.length_filter_le (fun e : κ × α => decide (e.1 ≠ key)) es
        simp only [List.filter_cons, hKey, ne_eq, not_true_eq_false, decide_false,
          Bool.false_eq_true, if_false, List.length_cons]
        exact Nat.lt_succ_of_le hLe
      · have hRest := ih (by simpa [lookup, hKey] using h)
        simpa [List.filter_cons, hKey] using hRest

end Table

end MemShell
