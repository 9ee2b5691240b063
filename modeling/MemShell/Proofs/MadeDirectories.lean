import MemShell.Proofs.StoreFaults

/-!
# Making a directory and those above it

To make a directory with all directories above it, the store climbs. It asks whether the
place is a file, then whether the place above is a directory, and if that is not so it
does the same for the place above, whose path it writes out and reads again (`Making`). How
far it climbs depends on what is there, and it stops at the first directory without
a look at what lies above that. In any flat table of files and directories this could
miss a file further up, or climb on at the root, which is the place above itself.

In a tree it does not. All that is on the way to a directory is a directory
(`WellFormed.hasDir_of_isOnWay`), so nothing above the place where the climb stops could be
in the way, and the root stops it at the latest. Of two files on the way to one place one
would be on the way to the other, so there is only one that can be in the way
(`WellFormed.file_unique`). What making comes to is therefore said without the climb: it
succeeds if no file is on the way, and adds what is on the way.

## Main results

* `making_iff` — every climb ends, and comes to what the operation is said to give.
* `exists_makeDirs`, `makeDirs_of_file` — what is made, and what is in the way.
* `mkdirAll_makes_way` — making directories, in every store that can be reached.
-/

namespace MemShell

/-! ## The way to an entry -/

namespace Location

/-- The place is passed on the way from the root to another, or is that other. -/
def IsOnWay (l target : Location) : Prop :=
  l.parts <+: target.parts

theorem isOnWay_root_iff {l : Location} : l.IsOnWay .root ↔ l = .root := by
  constructor
  · intro h
    cases l
    exact congrArg mk (List.prefix_nil.mp h)
  · rintro rfl
    exact List.prefix_refl _

/-- The last step of a way. -/
theorem isOnWay_cons_iff {l : Location} {name : String} {above : List String} :
    l.IsOnWay ⟨(name :: above).reverse⟩ ↔
      l = ⟨(name :: above).reverse⟩ ∨ l.IsOnWay ⟨above.reverse⟩ := by
  have hSame : l = ⟨(name :: above).reverse⟩ ↔ l.parts = (name :: above).reverse := by
    cases l
    simp
  rw [hSame, IsOnWay, IsOnWay, List.reverse_cons]
  exact List.prefix_concat_iff

theorem parent_cons (name : String) (above : List String) :
    parent ⟨(name :: above).reverse⟩ = ⟨above.reverse⟩ := by
  simp [parent]

end Location

namespace FileTree

section Ways

variable {t : FileTree} {l m target : Location}

/-- All that is on the way to a directory is a directory. -/
theorem WellFormed.hasDir_of_isOnWay (hForm : t.WellFormed) (hDir : t.hasDir target = true)
    (hWay : l.IsOnWay target) : t.hasDir l = true := by
  obtain ⟨rev, rfl⟩ : ∃ rev : List String, target = ⟨rev.reverse⟩ :=
    ⟨target.parts.reverse, by rw [List.reverse_reverse]⟩
  induction rev with
  | nil => rwa [Location.isOnWay_root_iff.mp hWay]
  | cons name above ih =>
      rcases Location.isOnWay_cons_iff.mp hWay with rfl | hAbove
      · exact hDir
      · have hParent := hForm.hasDir_parent _ (.inr hDir)
        rw [Location.parent_cons] at hParent
        exact ih hParent hAbove

/-- All that is passed on the way to an entry is a directory. -/
theorem WellFormed.hasDir_of_passed (hForm : t.WellFormed) (hHas : t.Has target)
    (hWay : l.IsOnWay target) (hOther : l ≠ target) : t.hasDir l = true := by
  obtain ⟨rev, rfl⟩ : ∃ rev : List String, target = ⟨rev.reverse⟩ :=
    ⟨target.parts.reverse, by rw [List.reverse_reverse]⟩
  cases rev with
  | nil => exact absurd (Location.isOnWay_root_iff.mp hWay) hOther
  | cons name above =>
      have hAbove := (Location.isOnWay_cons_iff.mp hWay).resolve_left hOther
      have hParent := hForm.hasDir_parent _ hHas
      rw [Location.parent_cons] at hParent
      exact hForm.hasDir_of_isOnWay hParent hAbove

theorem WellFormed.not_hasDir_of_hasFile (hForm : t.WellFormed) (hFile : t.hasFile l = true) :
    t.hasDir l = false :=
  Bool.eq_false_iff.mpr fun hDir => hForm.not_both l ⟨hFile, hDir⟩

/-- A file is not passed on the way to anything that is there. -/
theorem WellFormed.eq_of_file_isOnWay (hForm : t.WellFormed) (hFile : t.hasFile l = true)
    (hHas : t.Has m) (hWay : l.IsOnWay m) : l = m := by
  by_cases hSame : l = m
  · exact hSame
  · have hDir := hForm.hasDir_of_passed hHas hWay hSame
    rw [hForm.not_hasDir_of_hasFile hFile] at hDir
    cases hDir

/-- **At most one file** is on the way to a place, since one of two would be on the way to the
other. -/
theorem WellFormed.file_unique (hForm : t.WellFormed) (hl : t.hasFile l = true)
    (hm : t.hasFile m = true) (hlWay : l.IsOnWay target) (hmWay : m.IsOnWay target) : l = m := by
  rcases List.prefix_or_prefix_of_prefix hlWay hmWay with hWay | hWay
  · exact hForm.eq_of_file_isOnWay hl (.inl hm) hWay
  · exact (hForm.eq_of_file_isOnWay hm (.inl hl) hWay).symm

end Ways

/-! ## What is made and what is in the way -/

/-- No file is on the way to a place, nor at it. -/
def WayIsFree (t : FileTree) (target : Location) : Prop :=
  ∀ l, l.IsOnWay target → t.hasFile l = false

/-- A place is a file, and on the way to a place or at it. -/
def Blocks (t : FileTree) (l target : Location) : Prop :=
  l.IsOnWay target ∧ t.hasFile l = true

section Making

variable {t : FileTree} (hForm : t.WellFormed)

include hForm

/-- **Where the way is free**, all that is on it becomes a directory, and nothing else does. -/
theorem exists_makeDirs (rev : List String) (hFree : t.WayIsFree ⟨rev.reverse⟩) :
    ∃ t', t.makeDirs rev = .ok t' ∧ t'.files = t.files ∧
      ∀ l, t'.hasDir l = true ↔ t.hasDir l = true ∨ l.IsOnWay ⟨rev.reverse⟩ := by
  induction rev with
  | nil =>
      refine ⟨t.addDir .root, rfl, files_addDir t _, fun l => ?_⟩
      rw [hasDir_addDir, or_comm]
      exact or_congr_right Location.isOnWay_root_iff.symm
  | cons name above ih =>
      have hNoFile : t.hasFile ⟨(name :: above).reverse⟩ = false :=
        hFree _ (Location.isOnWay_cons_iff.mpr (.inl rfl))
      by_cases hParent : t.hasDir (Location.parent ⟨(name :: above).reverse⟩) = true
      · refine ⟨t.addDir ⟨(name :: above).reverse⟩, ?_, files_addDir t _, fun l => ?_⟩
        · simp only [makeDirs, hNoFile, hParent, if_true]
          rfl
        · rw [Location.parent_cons] at hParent
          rw [hasDir_addDir, Location.isOnWay_cons_iff]
          constructor
          · rintro (hNew | hOld)
            · exact .inr (.inl hNew)
            · exact .inl hOld
          · rintro (hOld | hNew | hAbove)
            · exact .inr hOld
            · exact .inl hNew
            · exact .inr (hForm.hasDir_of_isOnWay hParent hAbove)
      · have hAbove : t.WayIsFree ⟨above.reverse⟩ := fun l hWay =>
          hFree l (Location.isOnWay_cons_iff.mpr (.inr hWay))
        obtain ⟨t₁, hMade, hFiles, hDirs⟩ := ih hAbove
        refine ⟨t₁.addDir ⟨(name :: above).reverse⟩, ?_, ?_, fun l => ?_⟩
        · simp only [makeDirs, hNoFile, hParent, hMade]
          rfl
        · rw [files_addDir, hFiles]
        · rw [hasDir_addDir, hDirs, Location.isOnWay_cons_iff]
          exact or_left_comm

/-- **A file on the way** is reported, wherever on the way it is. -/
theorem makeDirs_of_file (rev : List String) {l : Location} (hFile : t.hasFile l = true)
    (hWay : l.IsOnWay ⟨rev.reverse⟩) : t.makeDirs rev = .error (.notDirectory l) := by
  induction rev with
  | nil =>
      obtain rfl := Location.isOnWay_root_iff.mp hWay
      exact absurd ⟨hFile, hForm.hasDir_root⟩ (hForm.not_both _)
  | cons name above ih =>
      rw [makeDirs]
      rcases Location.isOnWay_cons_iff.mp hWay with rfl | hAbove
      · simp only [hFile, if_true]
      · have hNoDir := hForm.not_hasDir_of_hasFile hFile
        -- below a file there is nothing, so the climb goes on until it is there
        have hNoParent : t.hasDir (Location.parent ⟨(name :: above).reverse⟩) = false := by
          rw [Location.parent_cons]
          refine Bool.eq_false_iff.mpr fun hDir => ?_
          rw [hForm.hasDir_of_isOnWay hDir hAbove] at hNoDir
          cases hNoDir
        have hNoFile : t.hasFile ⟨(name :: above).reverse⟩ = false := by
          refine Bool.eq_false_iff.mpr fun hHere => ?_
          have hParent := hForm.hasDir_parent _ (.inl hHere)
          rw [hNoParent] at hParent
          cases hParent
        simp only [hNoFile, hNoParent, ih hAbove]
        rfl

/-! ## The climb -/

omit hForm in
theorem inPlace_eq_ok_iff {act : FileTree → Except Fault FileTree} {t' : FileTree} :
    inPlace act t = .ok () t' ↔ act t = .ok t' := by
  unfold inPlace
  cases act t <;> simp

omit hForm in
theorem inPlace_eq_error_iff {act : FileTree → Except Fault FileTree} {fault : Fault}
    {t' : FileTree} : inPlace act t = .error fault t' ↔ act t = .error fault ∧ t' = t := by
  unfold inPlace
  cases act t <;> simp [eq_comm]

/-- One step of the climb. At the root it does not go on. -/
theorem mkdirAll_step (path : String) :
    t.mkdirAll path =
      if t.hasFile (.ofText path) = true then .error (.notDirectory (.ofText path))
      else if t.hasDir (Location.ofText path).parent = true then .ok (t.addDir (.ofText path))
      else (t.mkdirAll (Location.ofText path).parent.text).map (·.addDir (.ofText path)) := by
  have hCanonical := Location.canonical_ofText path
  unfold mkdirAll
  generalize Location.ofText path = l at hCanonical ⊢
  obtain ⟨rev, rfl⟩ : ∃ rev : List String, l = ⟨rev.reverse⟩ :=
    ⟨l.parts.reverse, by rw [List.reverse_reverse]⟩
  cases rev with
  | nil =>
      have hNoFile : t.hasFile .root = false :=
        Bool.eq_false_iff.mpr fun hFile => hForm.not_both _ ⟨hFile, hForm.hasDir_root⟩
      have hParent : t.hasDir Location.root.parent = true := hForm.hasDir_root
      show Except.ok (t.addDir .root) = if t.hasFile .root = true then _ else
        if t.hasDir Location.root.parent = true then _ else _
      rw [if_neg (by simp [hNoFile]), if_pos hParent]
      rfl
  | cons name above =>
      have hAbove := hCanonical.parent
      rw [Location.parent_cons] at hAbove
      rw [List.reverse_reverse, makeDirs, Location.parent_cons, Location.ofText_text hAbove,
        List.reverse_reverse]

end Making

/-- How the climb goes on from a path and ends, and the store that it leaves. -/
inductive Making (t : FileTree) : String → EStateM.Result Fault FileTree Unit → Prop
  | blocked {path : String} (hFile : t.hasFile (.ofText path) = true) :
      Making t path (.error (.notDirectory (.ofText path)) t)
  | last {path : String} (hFree : t.hasFile (.ofText path) = false)
      (hParent : t.hasDir (Location.ofText path).parent = true) :
      Making t path (.ok () (t.addDir (.ofText path)))
  | higher {path : String} {t' : FileTree} (hFree : t.hasFile (.ofText path) = false)
      (hMissing : t.hasDir (Location.ofText path).parent = false)
      (hAbove : Making t (Location.ofText path).parent.text (.ok () t')) :
      Making t path (.ok () (t'.addDir (.ofText path)))
  | failed {path : String} {fault : Fault} {t' : FileTree}
      (hFree : t.hasFile (.ofText path) = false)
      (hMissing : t.hasDir (Location.ofText path).parent = false)
      (hAbove : Making t (Location.ofText path).parent.text (.error fault t')) :
      Making t path (.error fault t')

section Climbs

variable {t : FileTree} (hForm : t.WellFormed)

include hForm

theorem eq_of_making {path : String} {r : EStateM.Result Fault FileTree Unit}
    (h : Making t path r) : r = inPlace (·.mkdirAll path) t := by
  induction h with
  | blocked hFile =>
      refine (inPlace_eq_error_iff.mpr ⟨?_, rfl⟩).symm
      rw [mkdirAll_step hForm, if_pos hFile]
  | last hFree hParent =>
      refine (inPlace_eq_ok_iff.mpr ?_).symm
      rw [mkdirAll_step hForm, if_neg (by simp [hFree]), if_pos hParent]
  | higher hFree hMissing _ ih =>
      refine (inPlace_eq_ok_iff.mpr ?_).symm
      rw [mkdirAll_step hForm, if_neg (by simp [hFree]), if_neg (by simp [hMissing]),
        inPlace_eq_ok_iff.mp ih.symm]
      rfl
  | failed hFree hMissing _ ih =>
      obtain ⟨hFault, rfl⟩ := inPlace_eq_error_iff.mp ih.symm
      refine (inPlace_eq_error_iff.mpr ⟨?_, rfl⟩).symm
      rw [mkdirAll_step hForm, if_neg (by simp [hFree]), if_neg (by simp [hMissing]), hFault]
      rfl

/-- Each step of the climb leaves one name less, and the root has none. -/
theorem exists_making (rev : List String) :
    ∀ {path : String}, .ofText path = (⟨rev.reverse⟩ : Location) → ∃ r, Making t path r := by
  induction rev with
  | nil =>
      intro path hRoot
      have hRoot : Location.ofText path = .root := hRoot
      refine ⟨_, .last ?_ ?_⟩
      · rw [hRoot]
        exact Bool.eq_false_iff.mpr fun hFile => hForm.not_both _ ⟨hFile, hForm.hasDir_root⟩
      · rw [hRoot]
        exact hForm.hasDir_root
  | cons name above ih =>
      intro path hPath
      cases hFile : t.hasFile (.ofText path) with
      | true => exact ⟨_, .blocked hFile⟩
      | false =>
          cases hParent : t.hasDir (Location.ofText path).parent with
          | true => exact ⟨_, .last hFile hParent⟩
          | false =>
              have hUp : .ofText (Location.ofText path).parent.text =
                  (⟨above.reverse⟩ : Location) := by
                rw [Location.ofText_text (Location.canonical_ofText path).parent, hPath,
                  Location.parent_cons]
              obtain ⟨r, hAbove⟩ := ih hUp
              cases r with
              | ok _ t' => exact ⟨_, .higher hFile hParent hAbove⟩
              | error fault t' => exact ⟨_, .failed hFile hParent hAbove⟩

/-- **Every climb ends**, and comes to what the operation is said to give. -/
theorem making_iff {path : String} {r : EStateM.Result Fault FileTree Unit} :
    Making t path r ↔ r = inPlace (·.mkdirAll path) t := by
  refine ⟨eq_of_making hForm, ?_⟩
  rintro rfl
  have hRev : .ofText path = (⟨(Location.ofText path).parts.reverse.reverse⟩ : Location) := by
    rw [List.reverse_reverse]
  obtain ⟨r, hMaking⟩ := exists_making hForm _ hRev
  rwa [eq_of_making hForm hMaking] at hMaking

end Climbs

/-! ## Whole operations -/

section Operations

variable {t t' : FileTree} (hForm : t.WellFormed) {path : String}

include hForm

theorem exists_mkdirAll (hFree : t.WayIsFree (.ofText path)) :
    ∃ t', t.mkdirAll path = .ok t' ∧ t'.files = t.files ∧
      ∀ l, t'.hasDir l = true ↔ t.hasDir l = true ∨ l.IsOnWay (.ofText path) := by
  have hMade := exists_makeDirs hForm (Location.ofText path).parts.reverse
  rw [List.reverse_reverse] at hMade
  exact hMade hFree

theorem mkdirAll_of_file {l : Location} (hFile : t.hasFile l = true)
    (hWay : l.IsOnWay (.ofText path)) : t.mkdirAll path = .error (.notDirectory l) :=
  makeDirs_of_file hForm _ hFile (by rwa [List.reverse_reverse])

/-- What is made, if anything is. -/
theorem made_of_mkdirAll (h : t.mkdirAll path = .ok t') :
    t.WayIsFree (.ofText path) ∧ t'.files = t.files ∧
      ∀ l, t'.hasDir l = true ↔ t.hasDir l = true ∨ l.IsOnWay (.ofText path) := by
  have hFree : t.WayIsFree (.ofText path) := by
    intro l hWay
    refine Bool.eq_false_iff.mpr fun hFile => ?_
    rw [mkdirAll_of_file hForm hFile hWay] at h
    cases h
  obtain ⟨t₁, hMade, hFiles, hDirs⟩ := exists_mkdirAll hForm hFree
  rw [hMade] at h
  cases h
  exact ⟨hFree, hFiles, hDirs⟩

theorem exists_mkdirAll_iff :
    (∃ t', t.mkdirAll path = .ok t') ↔ t.WayIsFree (.ofText path) := by
  constructor
  · rintro ⟨t', hMade⟩
    exact (made_of_mkdirAll hForm hMade).1
  · intro hFree
    obtain ⟨t', hMade, -⟩ := exists_mkdirAll hForm hFree
    exact ⟨t', hMade⟩

/-- **What is in the way** is reported, and it is the only thing in the way. -/
theorem mkdirAll_eq_error_iff {fault : Fault} :
    t.mkdirAll path = .error fault ↔
      ∃ l, t.Blocks l (.ofText path) ∧ (∀ m, t.Blocks m (.ofText path) → m = l) ∧
        fault = .notDirectory l := by
  constructor
  · intro h
    by_cases hBlocked : ∃ l, t.Blocks l (.ofText path)
    · obtain ⟨l, hWay, hFile⟩ := hBlocked
      rw [mkdirAll_of_file hForm hFile hWay] at h
      cases h
      exact ⟨l, ⟨hWay, hFile⟩, fun m hm => hForm.file_unique hm.2 hFile hm.1 hWay, rfl⟩
    · have hFree : t.WayIsFree (.ofText path) := fun l hWay =>
        Bool.eq_false_iff.mpr fun hFile => hBlocked ⟨l, hWay, hFile⟩
      obtain ⟨t', hMade, -⟩ := exists_mkdirAll hForm hFree
      rw [hMade] at h
      cases h
  · rintro ⟨l, ⟨hWay, hFile⟩, -, rfl⟩
    exact mkdirAll_of_file hForm hFile hWay

/-- The second time, the directory is there. -/
theorem mkdirAll_again (h : t.mkdirAll path = .ok t') : t'.mkdirAll path = .ok t' := by
  have hForm' : t'.WellFormed := (kept_mkdirAll h hForm).1
  obtain ⟨-, -, hDirs⟩ := made_of_mkdirAll hForm h
  have hDir : t'.hasDir (.ofText path) = true := (hDirs _).mpr (.inr (List.prefix_refl _))
  have hNoFile : t'.hasFile (.ofText path) = false :=
    Bool.eq_false_iff.mpr fun hFile => hForm'.not_both _ ⟨hFile, hDir⟩
  have hParent := hForm'.hasDir_parent _ (.inr hDir)
  rw [mkdirAll_step hForm', if_neg (by simp [hNoFile]), if_pos hParent, addDir, if_pos hDir]

/-- Making directories puts no file in the way of others. -/
theorem wayIsFree_of_mkdirAll (h : t.mkdirAll path = .ok t') (target : Location) :
    t'.WayIsFree target ↔ t.WayIsFree target := by
  obtain ⟨-, hFiles, -⟩ := made_of_mkdirAll hForm h
  unfold WayIsFree hasFile
  rw [hFiles]

end Operations

/-- The same files with the same contents, and the same directories. -/
structure SameEntries (t t' : FileTree) : Prop where
  files_eq : t.files = t'.files
  hasDir_iff : ∀ l, t.hasDir l = true ↔ t'.hasDir l = true

/-- **The order does not matter.** -/
theorem mkdirAll_comm {t t₁ t₁' t₂ t₂' : FileTree} {path path' : String} (hForm : t.WellFormed)
    (h₁ : t.mkdirAll path = .ok t₁) (h₂ : t₁.mkdirAll path' = .ok t₂)
    (h₁' : t.mkdirAll path' = .ok t₁') (h₂' : t₁'.mkdirAll path = .ok t₂') :
    SameEntries t₂ t₂' := by
  obtain ⟨-, hFiles₁, hDirs₁⟩ := made_of_mkdirAll hForm h₁
  obtain ⟨-, hFiles₂, hDirs₂⟩ := made_of_mkdirAll (kept_mkdirAll h₁ hForm).1 h₂
  obtain ⟨-, hFiles₁', hDirs₁'⟩ := made_of_mkdirAll hForm h₁'
  obtain ⟨-, hFiles₂', hDirs₂'⟩ := made_of_mkdirAll (kept_mkdirAll h₁' hForm).1 h₂'
  constructor
  · rw [hFiles₂, hFiles₁, hFiles₂', hFiles₁']
  · intro l
    rw [hDirs₂, hDirs₁, hDirs₂', hDirs₁']
    exact or_right_comm

/--
**A directory is made with its whole way, or not at all.** In every store that can be reached,
and for every path, the climb ends in exactly one way. It succeeds if no file is on the way to
the place or at it; then the files are as they were, the directories are those that were
there and those on the way, and doing it again changes nothing. Otherwise the store is as it
was, and the fault names the one file that is on the way or at the place. Directories that
can be made can still be made after others, and the order does not matter.
-/
theorem mkdirAll_makes_way (paths : List String) (ops : List Operation) :
    let t := (ofDirs paths).afterAll ops
    (∀ path : String,
      (∀ r, Making t path r ↔ r = inPlace (·.mkdirAll path) t) ∧
      ((∃ t', t.mkdirAll path = .ok t') ↔ t.WayIsFree (.ofText path)) ∧
      (∀ t', t.mkdirAll path = .ok t' → t'.files = t.files ∧
        (∀ l, t'.hasDir l = true ↔ t.hasDir l = true ∨ l.IsOnWay (.ofText path)) ∧
        t'.mkdirAll path = .ok t') ∧
      ∀ fault, t.mkdirAll path = .error fault ↔
        ∃ l, t.Blocks l (.ofText path) ∧ (∀ m, t.Blocks m (.ofText path) → m = l) ∧
          fault = .notDirectory l) ∧
    ∀ (path path' : String) (t₁ : FileTree), t.mkdirAll path = .ok t₁ →
      ((∃ t₂, t₁.mkdirAll path' = .ok t₂) ↔ ∃ t₁', t.mkdirAll path' = .ok t₁') ∧
      ∀ t₁', t.mkdirAll path' = .ok t₁' →
        ∃ t₂ t₂', t₁.mkdirAll path' = .ok t₂ ∧ t₁'.mkdirAll path = .ok t₂' ∧
          SameEntries t₂ t₂' := by
  intro t
  have hForm : t.WellFormed := wellFormed_reached paths ops
  refine ⟨fun path => ⟨fun r => making_iff hForm, exists_mkdirAll_iff hForm, fun t' hMade => ?_,
    fun fault => mkdirAll_eq_error_iff hForm⟩, fun path path' t₁ hMade => ?_⟩
  · obtain ⟨-, hFiles, hDirs⟩ := made_of_mkdirAll hForm hMade
    exact ⟨hFiles, hDirs, mkdirAll_again hForm hMade⟩
  · have hForm₁ : t₁.WellFormed := (kept_mkdirAll hMade hForm).1
    have hStill : (∃ t₂, t₁.mkdirAll path' = .ok t₂) ↔ ∃ t₁', t.mkdirAll path' = .ok t₁' := by
      rw [exists_mkdirAll_iff hForm₁, exists_mkdirAll_iff hForm, wayIsFree_of_mkdirAll hForm hMade]
    refine ⟨hStill, fun t₁' hMade' => ?_⟩
    have hForm₁' : t₁'.WellFormed := (kept_mkdirAll hMade' hForm).1
    obtain ⟨t₂, hThen⟩ := hStill.mpr ⟨t₁', hMade'⟩
    have hFree : t₁'.WayIsFree (.ofText path) :=
      (wayIsFree_of_mkdirAll hForm hMade' _).mpr ((exists_mkdirAll_iff hForm).mp ⟨t₁, hMade⟩)
    obtain ⟨t₂', hThen'⟩ := (exists_mkdirAll_iff hForm₁').mpr hFree
    exact ⟨t₂, t₂', hThen, hThen', mkdirAll_comm hForm hMade hThen hMade' hThen'⟩

/-- A file next to which directories are made. -/
def nextToFile : List Operation :=
  [.write "/a/f" "one"]

/-- A file two steps up is reported, and two orders list the same directories differently. -/
theorem mkdirAll_makes_way_nextToFile :
    let t := (ofDirs ["/a"]).afterAll nextToFile
    t.Blocks ⟨["a", "f"]⟩ (.ofText "/a/f/x/y") ∧
    t.mkdirAll "/a/f/x/y" = .error (.notDirectory ⟨["a", "f"]⟩) ∧
    ∃ t₁ t₁', t.mkdirAll "/a/b/../c//d" = .ok t₁ ∧ t.mkdirAll "b" = .ok t₁' ∧
      t₁.hasDir ⟨["a", "c"]⟩ = true ∧ t₁.mkdirAll "/a/b/../c//d" = .ok t₁ ∧
      ∃ t₂ t₂', t₁.mkdirAll "b" = .ok t₂ ∧ t₁'.mkdirAll "/a/b/../c//d" = .ok t₂' ∧
        SameEntries t₂ t₂' ∧ t₂.dirs ≠ t₂'.dirs := by
  intro t
  obtain ⟨hEach, hBoth⟩ := mkdirAll_makes_way ["/a"] nextToFile
  have hBlocks : t.Blocks ⟨["a", "f"]⟩ (.ofText "/a/f/x/y") :=
    ⟨⟨["x", "y"], by decide +kernel⟩, by decide +kernel⟩
  have hFault : t.mkdirAll "/a/f/x/y" = .error (.notDirectory ⟨["a", "f"]⟩) := by
    cases hMade : t.mkdirAll "/a/f/x/y" with
    | ok t' =>
        have hFree := (hEach "/a/f/x/y").2.1.mp ⟨t', hMade⟩
        cases (hFree _ hBlocks.1).symm.trans hBlocks.2
    | error fault =>
        obtain ⟨l, -, hOnly, rfl⟩ := ((hEach "/a/f/x/y").2.2.2 fault).mp hMade
        rw [hOnly _ hBlocks]
  have hFirst : t.mkdirAll "/a/b/../c//d" = .ok _ := rfl
  have hSecond : t.mkdirAll "b" = .ok _ := rfl
  obtain ⟨-, hDirs, hAgain⟩ := (hEach "/a/b/../c//d").2.2.1 _ hFirst
  obtain ⟨t₂, t₂', hThen, hThen', hSame⟩ := (hBoth _ _ _ hFirst).2 _ hSecond
  refine ⟨hBlocks, hFault, _, _, hFirst, hSecond, ?_, hAgain, t₂, t₂', hThen, hThen', hSame, ?_⟩
  · exact (hDirs _).mpr (.inr ⟨["d"], by decide +kernel⟩)
  · cases hThen
    cases hThen'
    decide +kernel

end FileTree

end MemShell
