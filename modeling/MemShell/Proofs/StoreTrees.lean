import MemShell.FileTree
import MemShell.Proofs.CanonicalLocations

/-!
# The store is a tree

The store keeps a flat table of files and a flat list of directories. Nothing in these
two says that they form a tree: that every entry lies in a directory that is there, up
to the root, and that nothing is a file and a directory at once. It is the operations
that see to it, and here it is shown that they do, for path texts of any spelling and
whether the operations succeed or fail.

Only two things ever happen to the store. A file is entered in a directory that is
there, at a place that is no directory (`WellFormed.enterFile`); or a directory is added
to a directory that is there, at a place that is no file (`WellFormed.addDir`). Making a
directory together with those above it is the second, again and again from the top
down: the place is checked on the way up and its parent is there on the way down
(`kept_makeDirs`). Each operation is one of these or nothing, and none of them takes an
entry away.

That a failure changes nothing goes without saying for an operation that gives a new
store or a fault. It is not so plain for directories that are entered one by one in the
store itself, where a failure could leave the first few behind. All that can fail fails on
the way up, so it does not (`enterDirs_eq`).

## Main results

* `kept_result` — what one operation preserves and keeps.
* `kept_afterAll` — what any sequence of operations does.
* `enterDirs_eq` — directories are made as a whole or not at all.
* `wellFormed_afterAll` — a store that is made and then worked on is a tree, and it
  still has what it had.
-/

namespace MemShell.FileTree

/-! ## Well-formed stores -/

/-- The place is a file or a directory of the store. -/
def Has (t : FileTree) (l : Location) : Prop :=
  t.hasFile l = true ∨ t.hasDir l = true

/-- The files and directories form a tree. -/
structure WellFormed (t : FileTree) : Prop where
  /-- The root is a directory. -/
  hasDir_root : t.hasDir .root = true
  /-- No place is both a file and a directory. -/
  not_both : ∀ l, ¬ (t.hasFile l = true ∧ t.hasDir l = true)
  /-- Only names lead to an entry. -/
  canonical : ∀ l, t.Has l → l.Canonical
  /-- Every entry lies in a directory. -/
  hasDir_parent : ∀ l, t.Has l → t.hasDir l.parent = true

/-- The second store has the entries of the first, with the same kind. -/
structure Keeps (t t' : FileTree) : Prop where
  hasFile : ∀ l, t.hasFile l = true → t'.hasFile l = true
  hasDir : ∀ l, t.hasDir l = true → t'.hasDir l = true

theorem Keeps.refl (t : FileTree) : Keeps t t :=
  ⟨fun _ h => h, fun _ h => h⟩

theorem Keeps.trans {t t₁ t' : FileTree} (h : Keeps t t₁) (h' : Keeps t₁ t') : Keeps t t' :=
  ⟨fun l hFile => h'.hasFile l (h.hasFile l hFile), fun l hDir => h'.hasDir l (h.hasDir l hDir)⟩

/-- The second store is a tree if the first is, and has what the first has. -/
def Kept (t t' : FileTree) : Prop :=
  t.WellFormed → t'.WellFormed ∧ Keeps t t'

theorem Kept.refl (t : FileTree) : Kept t t :=
  fun h => ⟨h, .refl t⟩

theorem Kept.trans {t t₁ t' : FileTree} (h : Kept t t₁) (h' : Kept t₁ t') : Kept t t' := by
  intro hForm
  obtain ⟨hForm₁, hKeeps⟩ := h hForm
  obtain ⟨hForm', hKeeps'⟩ := h' hForm₁
  exact ⟨hForm', hKeeps.trans hKeeps'⟩

theorem wellFormed_empty : empty.WellFormed := by
  have hNoFile : ∀ l, empty.hasFile l = false := fun _ => rfl
  have hOnly : ∀ l, empty.Has l → l = .root := by
    intro l hHas
    rcases hHas with hFile | hDir
    · rw [hNoFile] at hFile
      cases hFile
    · simpa [empty, hasDir] using hDir
  constructor
  · rfl
  · intro l hBoth
    rw [hNoFile] at hBoth
    cases hBoth.1
  · intro l hHas
    rw [hOnly l hHas]
    exact Location.canonical_root
  · intro l hHas
    rw [hOnly l hHas]
    rfl

/-! ## The two things that happen to a store -/

theorem hasFile_insert (t : FileTree) (l m : Location) (content : String) :
    hasFile { t with files := t.files.insert l content } m = true ↔ l = m ∨ t.hasFile m = true := by
  unfold hasFile Table.contains
  rw [Table.get?_insert]
  by_cases hSame : l = m <;> simp [hSame]

theorem hasDir_addDir (t : FileTree) (l m : Location) :
    (t.addDir l).hasDir m = true ↔ m = l ∨ t.hasDir m = true := by
  unfold hasDir
  rw [List.contains_iff_mem, List.contains_iff_mem, mem_addDir]

@[simp] theorem hasFile_addDir (t : FileTree) (l m : Location) :
    (t.addDir l).hasFile m = t.hasFile m := by
  unfold hasFile
  rw [files_addDir]

section Places

variable {t : FileTree} {l : Location}

/-- A file in a directory that is there. -/
theorem WellFormed.enterFile (h : t.WellFormed) (hCanonical : l.Canonical)
    (hNoDir : t.hasDir l = false) (hParent : t.hasDir l.parent = true) (content : String) :
    WellFormed { t with files := t.files.insert l content } := by
  constructor
  · exact h.hasDir_root
  · rintro m ⟨hFile, hDir⟩
    rcases (hasFile_insert t l m content).mp hFile with rfl | hOld
    · have hThere : t.hasDir l = true := hDir
      rw [hNoDir] at hThere
      cases hThere
    · exact h.not_both m ⟨hOld, hDir⟩
  · rintro m (hFile | hDir)
    · rcases (hasFile_insert t l m content).mp hFile with rfl | hOld
      · exact hCanonical
      · exact h.canonical m (.inl hOld)
    · exact h.canonical m (.inr hDir)
  · rintro m (hFile | hDir)
    · rcases (hasFile_insert t l m content).mp hFile with rfl | hOld
      · exact hParent
      · exact h.hasDir_parent m (.inl hOld)
    · exact h.hasDir_parent m (.inr hDir)

theorem keeps_enterFile (t : FileTree) (l : Location) (content : String) :
    Keeps t { t with files := t.files.insert l content } :=
  ⟨fun m hFile => (hasFile_insert t l m content).mpr (.inr hFile), fun _ hDir => hDir⟩

/-- A directory in a directory that is there. -/
theorem WellFormed.addDir (h : t.WellFormed) (hCanonical : l.Canonical)
    (hNoFile : t.hasFile l = false) (hParent : t.hasDir l.parent = true) :
    (t.addDir l).WellFormed := by
  constructor
  · exact (hasDir_addDir t l _).mpr (.inr h.hasDir_root)
  · rintro m ⟨hFile, hDir⟩
    rw [hasFile_addDir] at hFile
    rcases (hasDir_addDir t l m).mp hDir with rfl | hOld
    · rw [hNoFile] at hFile
      cases hFile
    · exact h.not_both m ⟨hFile, hOld⟩
  · rintro m (hFile | hDir)
    · rw [hasFile_addDir] at hFile
      exact h.canonical m (.inl hFile)
    · rcases (hasDir_addDir t l m).mp hDir with rfl | hOld
      · exact hCanonical
      · exact h.canonical m (.inr hOld)
  · rintro m (hFile | hDir)
    · rw [hasFile_addDir] at hFile
      exact (hasDir_addDir t l _).mpr (.inr (h.hasDir_parent m (.inl hFile)))
    · rcases (hasDir_addDir t l m).mp hDir with rfl | hOld
      · exact (hasDir_addDir t m _).mpr (.inr hParent)
      · exact (hasDir_addDir t l _).mpr (.inr (h.hasDir_parent m (.inr hOld)))

theorem keeps_addDir (t : FileTree) (l : Location) : Keeps t (t.addDir l) :=
  ⟨fun m hFile => by rwa [hasFile_addDir], fun m hDir => (hasDir_addDir t l m).mpr (.inr hDir)⟩

end Places

/-! ## Operations -/

/-- Where a file may be written: no directory is there, and its parent is one. -/
theorem writable_eq_ok_iff {t : FileTree} {path : String} {l : Location} :
    t.writable path = .ok l ↔
      l = .ofText path ∧ t.hasDir l = false ∧ t.hasDir l.parent = true := by
  unfold writable
  constructor
  · intro h
    by_cases hDir : t.hasDir (.ofText path) = true
    · simp [hDir] at h
    · by_cases hParent : t.hasDir (Location.ofText path).parent = true
      · obtain rfl : .ofText path = l := by simpa [hDir, hParent] using h
        exact ⟨rfl, by simpa using hDir, hParent⟩
      · by_cases hFile : t.hasFile (Location.ofText path).parent = true <;>
          simp [hDir, hParent, hFile] at h
  · rintro ⟨rfl, hDir, hParent⟩
    simp [hDir, hParent]

/-- Entering a file where one may be written. -/
theorem kept_enterFile {t t' : FileTree} {path : String} (content : Location → String)
    (h : (t.writable path).map (fun l => { t with files := t.files.insert l (content l) }) =
      .ok t') : Kept t t' := by
  intro hForm
  cases hPlace : t.writable path with
  | error fault =>
      rw [hPlace] at h
      cases h
  | ok l =>
      rw [hPlace] at h
      cases h
      obtain ⟨hEntry, hNoDir, hParent⟩ := writable_eq_ok_iff.mp hPlace
      have hCanonical : l.Canonical := hEntry ▸ Location.canonical_ofText path
      exact ⟨hForm.enterFile hCanonical hNoDir hParent _, keeps_enterFile t l _⟩

theorem kept_mkdir {t t' : FileTree} {path : String} (h : t.mkdir path = .ok t') :
    Kept t t' := by
  intro hForm
  unfold mkdir at h
  by_cases hFile : t.hasFile (.ofText path) = true
  · simp [hFile] at h
  · by_cases hParent : t.hasDir (Location.ofText path).parent = true
    · obtain rfl : t.addDir (.ofText path) = t' := by simpa [hFile, hParent] using h
      have hNoFile : t.hasFile (.ofText path) = false := by simpa using hFile
      exact ⟨hForm.addDir (Location.canonical_ofText path) hNoFile hParent, keeps_addDir t _⟩
    · simp [hFile, hParent] at h

/-- Directories from the top down. After the ones above are there, no file has come in
between, so what was checked on the way up still holds. -/
theorem kept_makeDirs {t : FileTree} (hForm : t.WellFormed) (rev : List String) :
    ∀ {t' : FileTree}, (∀ name ∈ rev, Location.IsEntryName name) → t.makeDirs rev = .ok t' →
      (t'.WellFormed ∧ Keeps t t') ∧ t'.hasDir ⟨rev.reverse⟩ = true ∧ t'.files = t.files := by
  induction rev with
  | nil =>
      intro t' _ h
      cases h
      have hNoFile : t.hasFile .root = false :=
        Bool.eq_false_iff.mpr fun hFile => hForm.not_both .root ⟨hFile, hForm.hasDir_root⟩
      have hRoot := hForm.addDir Location.canonical_root hNoFile hForm.hasDir_root
      exact ⟨⟨hRoot, keeps_addDir t _⟩, (hasDir_addDir t _ _).mpr (.inl rfl), files_addDir t _⟩
  | cons name above ih =>
      intro t' hNames h
      have hAbove : ∀ n ∈ above, Location.IsEntryName n := fun n hMem =>
        hNames n (List.mem_cons_of_mem name hMem)
      have hCanonical : Location.Canonical ⟨(name :: above).reverse⟩ := fun n hMem =>
        hNames n (List.mem_reverse.mp hMem)
      have hUp : Location.parent ⟨(name :: above).reverse⟩ = ⟨above.reverse⟩ := by
        simp [Location.parent]
      unfold makeDirs at h
      by_cases hFile : t.hasFile ⟨(name :: above).reverse⟩ = true
      · simp only [hFile, if_true] at h
        cases h
      · have hNoFile : t.hasFile ⟨(name :: above).reverse⟩ = false := by simpa using hFile
        by_cases hParent : t.hasDir (Location.parent ⟨(name :: above).reverse⟩) = true
        · simp only [hNoFile, hParent, if_true] at h
          cases h
          have hAdded := hForm.addDir hCanonical hNoFile hParent
          exact ⟨⟨hAdded, keeps_addDir t _⟩, (hasDir_addDir t _ _).mpr (.inl rfl),
            files_addDir t _⟩
        · simp only [hNoFile, hParent] at h
          cases hMade : t.makeDirs above with
          | error fault =>
              rw [hMade] at h
              cases h
          | ok t₁ =>
              rw [hMade] at h
              cases h
              obtain ⟨⟨hForm₁, hKeeps⟩, hThere, hFiles⟩ := ih hAbove hMade
              have hNoFile₁ : t₁.hasFile ⟨(name :: above).reverse⟩ = false := by
                unfold hasFile
                rw [hFiles]
                exact hNoFile
              have hAdded := hForm₁.addDir hCanonical hNoFile₁ (by rw [hUp]; exact hThere)
              refine ⟨⟨hAdded, hKeeps.trans (keeps_addDir t₁ _)⟩, ?_, ?_⟩
              · exact (hasDir_addDir t₁ _ _).mpr (.inl rfl)
              · rw [files_addDir, hFiles]

theorem kept_mkdirAll {t t' : FileTree} {path : String} (h : t.mkdirAll path = .ok t') :
    Kept t t' := by
  intro hForm
  have hNames : ∀ name ∈ (Location.ofText path).parts.reverse, Location.IsEntryName name :=
    fun name hMem => Location.canonical_ofText path name (List.mem_reverse.mp hMem)
  exact (kept_makeDirs hForm _ hNames h).1

/-- Changes the store itself. A fault leaves it as it was. -/
def inPlace (act : FileTree → Except Fault FileTree) : EStateM Fault FileTree Unit := fun t =>
  match act t with
  | .ok t' => .ok () t'
  | .error fault => .error fault t

/-- Makes directories in the store itself, each when those above it are there. What was made
before a fault stays. -/
def enterDirs : List String → EStateM Fault FileTree Unit
  | [] => modify (·.addDir .root)
  | name :: above => do
      let l : Location := ⟨(name :: above).reverse⟩
      let t ← get
      if t.hasFile l then throw (.notDirectory l)
      else if t.hasDir l.parent then modify (·.addDir l)
      else
        enterDirs above
        modify (·.addDir l)

/-- **As a whole or not at all.** Once a directory is made, nothing fails any more. -/
theorem enterDirs_eq (t : FileTree) (rev : List String) :
    enterDirs rev t = inPlace (·.makeDirs rev) t := by
  induction rev with
  | nil => rfl
  | cons name above ih =>
      rw [inPlace, makeDirs]
      show (if _ then _ else if _ then _ else _ : EStateM Fault FileTree Unit) t = _
      by_cases hFile : t.hasFile ⟨(name :: above).reverse⟩ = true
      · simp only [hFile, if_true]
        rfl
      · by_cases hParent : t.hasDir (Location.parent ⟨(name :: above).reverse⟩) = true
        · simp only [hFile, hParent, if_true]
          rfl
        · simp only [hFile, hParent]
          show EStateM.bind (enterDirs above) _ t = _
          rw [EStateM.bind, ih, inPlace]
          cases t.makeDirs above <;> rfl

/-- What can be asked of a store to change it. -/
inductive Operation where
  | write (path content : String)
  | append (path content : String)
  | mkdir (path : String)
  /-- Makes a directory and those above it. -/
  | mkdirAll (path : String)
deriving DecidableEq, Repr

def Operation.result (t : FileTree) : Operation → Except Fault FileTree
  | write path content => t.write path content
  | append path content => t.append path content
  | mkdir path => t.mkdir path
  | mkdirAll path => t.mkdirAll path

/-- **One operation** that succeeds leaves a tree a tree and keeps its entries. -/
theorem kept_result {t t' : FileTree} {op : Operation} (h : op.result t = .ok t') : Kept t t' := by
  cases op with
  | write path content => exact kept_enterFile (fun _ => content) h
  | append path content =>
      exact kept_enterFile (fun l => (t.files.get? l).getD "" ++ content) h
  | mkdir path => exact kept_mkdir h
  | mkdirAll path => exact kept_mkdirAll h

/-! ## Sequences of operations -/

/-- The store after an operation; one that fails changes nothing. -/
def afterOne (t : FileTree) (op : Operation) : FileTree :=
  match op.result t with
  | .ok t' => t'
  | .error _ => t

def afterAll (t : FileTree) (ops : List Operation) : FileTree :=
  ops.foldl afterOne t

theorem kept_afterOne (t : FileTree) (op : Operation) : Kept t (t.afterOne op) := by
  unfold afterOne
  cases hResult : op.result t with
  | ok t' => exact kept_result hResult
  | error fault => exact .refl t

/-- **Operations one after the other.** -/
theorem kept_afterAll (ops : List Operation) : ∀ t : FileTree, Kept t (t.afterAll ops) := by
  induction ops with
  | nil => exact .refl
  | cons op ops ih =>
      intro t
      exact (kept_afterOne t op).trans (ih (t.afterOne op))

/-- A store with given directories is one on which these were made. -/
theorem ofDirs_eq (paths : List String) : ofDirs paths = empty.afterAll (paths.map .mkdirAll) := by
  rw [afterAll, List.foldl_map]
  rfl

/--
**The store is a tree.** A store is made with any directories, and then any operations
are asked of it, of which some succeed and some fail. At every moment its root is a
directory, no place is a file and a directory, every entry lies in a directory, and only
names lead to an entry, whose path leads back to it. And every entry of an earlier moment
is still there, with the same kind. Where directories are made one by one in the store
itself, those that fail have left nothing behind.
-/
theorem wellFormed_afterAll (paths : List String) (earlier later : List Operation) :
    let t := (ofDirs paths).afterAll earlier
    let t' := t.afterAll later
    t'.WellFormed ∧ (∀ l, t'.Has l → .ofText l.text = l) ∧ Keeps t t' ∧
      ∀ path, enterDirs (Location.ofText path).parts.reverse t' = inPlace (·.mkdirAll path) t' := by
  intro t t'
  have hForm : t.WellFormed := by
    have hMade : (ofDirs paths).WellFormed := by
      rw [ofDirs_eq]
      exact (kept_afterAll _ empty wellFormed_empty).1
    exact (kept_afterAll earlier _ hMade).1
  obtain ⟨hForm', hKeeps⟩ := kept_afterAll later t hForm
  exact ⟨hForm', fun l hHas => Location.ofText_text (hForm'.canonical l hHas), hKeeps,
    fun path => enterDirs_eq t' _⟩

end MemShell.FileTree
