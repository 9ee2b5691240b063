import MemShell.Proofs.StoreFaults

/-!
# What a directory lists

The store has no list of what is in a directory. It goes through all files and directories,
keeps those whose path without the last name is the path of the directory, and gives
their last names, each once and in order. The root has to be left out by hand, since it is
the place above itself.

Whether a name is in a directory can be asked in another way: by its path, which is the path
of the directory, a slash and the name. That both agree, for paths of any spelling, is a
fact about paths and about the store. Cutting a path at its slashes cuts what is
before a slash and what is behind it apart (`splitAt_append_cons`), so the longer path leads
one name further (`ofText_child`); and a place is known by the place above it and
its last name, unless it is the root (`eq_child`). A name that no path could reach that way,
such as one with a slash in it, is not listed because nothing in the store has it.

## Main results

* `mem_namesIn_iff` — what is listed, in every store.
* `contains_iff_listed` — what is there is listed in the place above.
* `list_shows_directory` — listings, in every store that can be reached.
-/

namespace MemShell

/-! ## One name further -/

namespace Location

/-- The place that a name leads to from a place. -/
def child (l : Location) (name : String) : Location :=
  ⟨l.parts ++ [name]⟩

@[simp] theorem parent_child (l : Location) (name : String) : (l.child name).parent = l := by
  simp [child, parent]

@[simp] theorem name_child (l : Location) (name : String) : (l.child name).name = name := by
  simp [child, Location.name]

theorem child_ne (l : Location) (name : String) : l.child name ≠ l := by
  intro h
  have hParts : l.parts ++ [name] = l.parts := congrArg parts h
  simp at hParts

/-- A place is known by the place above it and its last name. -/
theorem eq_child {l : Location} (h : l ≠ .root) : l = l.parent.child l.name := by
  obtain ⟨ps⟩ := l
  rcases List.eq_nil_or_concat ps with rfl | ⟨front, last, rfl⟩
  · exact absurd rfl h
  · simp [child, parent, Location.name]

/-- A slash and a name lead one name further. -/
theorem ofText_child (path : String) {name : String} (hName : IsEntryName name) :
    ofText (path ++ "/" ++ name) = (ofText path).child name := by
  have hPieces : Text.split '/' (path ++ "/" ++ name) = Text.split '/' path ++ [name] := by
    have hText : (path ++ "/" ++ name).toList = path.toList ++ '/' :: name.toList := by
      rw [String.toList_append, String.toList_append, List.append_assoc]
      rfl
    rw [Text.split, hText, Text.splitAt_append_cons, Text.splitAt_of_not_mem hName.no_slash,
      List.map_append, List.map_singleton, String.ofList_toList]
    rfl
  rw [ofText, hPieces, List.foldl_append, List.foldl_cons, List.foldl_nil,
    push_of_isEntryName hName, List.reverse_cons]
  rfl

end Location

/-! ## Names in order -/

private theorem nodup_eraseDups {α : Type} [DecidableEq α] :
    ∀ xs : List α, xs.eraseDups.Nodup
  | [] => by simp
  | x :: xs => by
      rw [List.eraseDups_cons, List.nodup_cons]
      exact ⟨by simp, nodup_eraseDups (xs.filter fun y => !y == x)⟩
termination_by xs => xs.length
decreasing_by exact Nat.lt_succ_of_le (List.length_filter_le _ _)

/-- Texts that are sorted and all different are strictly increasing. -/
theorem pairwise_lt_sorted (names : List String) :
    (names.eraseDups.mergeSort fun a b => decide (a ≤ b)).Pairwise (· < ·) := by
  have hSorted : (names.eraseDups.mergeSort fun a b => decide (a ≤ b)).Pairwise (· ≤ ·) := by
    have hTrans : ∀ a b c : String, decide (a ≤ b) = true → decide (b ≤ c) = true →
        decide (a ≤ c) = true := by simpa using fun a b c => String.le_trans
    have hTotal : ∀ a b : String, (decide (a ≤ b) || decide (b ≤ a)) = true := by
      simpa using String.le_total
    simpa using List.pairwise_mergeSort hTrans hTotal names.eraseDups
  have hNodup := (List.mergeSort_perm names.eraseDups fun a b => decide (a ≤ b)).nodup_iff.mpr
    (nodup_eraseDups names)
  refine hSorted.imp₂ (fun a b hLe hNe => ?_) hNodup
  exact String.not_le.mp fun hBack => hNe (String.le_antisymm hLe hBack)

namespace FileTree

variable {t : FileTree} {path : String}

theorem contains_iff_has : t.contains path = true ↔ t.Has (.ofText path) := by
  simp [contains, Has]

theorem mem_entries_iff {l : Location} : l ∈ t.files.keys ++ t.dirs ↔ t.Has l := by
  rw [List.mem_append, Table.mem_keys_iff, Has, hasFile, hasDir, List.contains_iff_mem]

/-- A directory has a listing. -/
theorem list_eq (hDir : t.isDir path = true) : t.list path = .ok (t.namesIn (.ofText path)) := by
  have hHere : t.hasDir (.ofText path) = true := hDir
  rw [list, if_pos hHere]

/-- **What is listed** is one name further. -/
theorem mem_namesIn_iff {l : Location} {name : String} :
    name ∈ t.namesIn l ↔ t.Has (l.child name) := by
  rw [namesIn, List.mem_mergeSort, List.mem_eraseDups, List.mem_map]
  constructor
  · rintro ⟨e, hMem, rfl⟩
    obtain ⟨hEntry, hBelow⟩ := List.mem_filter.mp hMem
    obtain ⟨hOther, rfl⟩ : e ≠ l ∧ e.parent = l := by simpa using hBelow
    have hRoot : e ≠ .root := by
      rintro rfl
      exact hOther rfl
    rw [← Location.eq_child hRoot]
    exact mem_entries_iff.mp hEntry
  · intro hHas
    refine ⟨l.child name, List.mem_filter.mpr ⟨mem_entries_iff.mpr hHas, ?_⟩, l.name_child name⟩
    simp [Location.child_ne]

/-- **What is there is listed** in the place above it. -/
theorem contains_iff_listed (hForm : t.WellFormed) (hRoot : .ofText path ≠ Location.root) :
    t.contains path = true ↔
      t.isDir (Location.ofText path).parent.text = true ∧
        ∃ names, t.list (Location.ofText path).parent.text = .ok names ∧
          (Location.ofText path).name ∈ names := by
  have hUp : .ofText (Location.ofText path).parent.text = (Location.ofText path).parent :=
    Location.ofText_text (Location.canonical_ofText path).parent
  have hThere : t.contains path = true ↔
      (Location.ofText path).name ∈ t.namesIn (Location.ofText path).parent := by
    rw [mem_namesIn_iff, ← Location.eq_child hRoot, contains_iff_has]
  rw [hThere]
  constructor
  · intro hMem
    have hHas := mem_namesIn_iff.mp hMem
    have hDir : t.isDir (Location.ofText path).parent.text = true := by
      have hParent := hForm.hasDir_parent _ hHas
      rw [Location.parent_child] at hParent
      rwa [isDir, hUp]
    exact ⟨hDir, _, list_eq hDir, by rwa [hUp]⟩
  · rintro ⟨hDir, names, hList, hMem⟩
    rw [list_eq hDir, hUp] at hList
    cases hList
    exact hMem

/--
**Listings describe the store.** In every store that can be reached, a path that names a
directory has a listing. Its names are strictly increasing, character by character, and none
of them is empty or has a slash; and a name that can lead to an entry is listed if its path
behind the path of the directory names something. A path that does not lead to the root
names something exactly if the place above is a directory that lists the last name.
-/
theorem list_shows_directory (paths : List String) (ops : List Operation) :
    let t := (ofDirs paths).afterAll ops
    (∀ path : String, t.isDir path = true →
      ∃ names, t.list path = .ok names ∧ names.Pairwise (· < ·) ∧
        (∀ name ∈ names, name ≠ "" ∧ '/' ∉ name.toList) ∧
        ∀ name : String, '/' ∉ name.toList → name ≠ "" → name ≠ "." → name ≠ ".." →
          (name ∈ names ↔ t.contains (path ++ "/" ++ name) = true)) ∧
    ∀ path : String, .ofText path ≠ Location.root →
      (t.contains path = true ↔
        t.isDir (Location.ofText path).parent.text = true ∧
          ∃ names, t.list (Location.ofText path).parent.text = .ok names ∧
            (Location.ofText path).name ∈ names) := by
  intro t
  have hForm : t.WellFormed := wellFormed_reached paths ops
  refine ⟨fun path hDir => ⟨_, list_eq hDir, pairwise_lt_sorted _, fun name hMem => ?_,
    fun name hSlash hEmpty hDot hDots => ?_⟩, fun path => contains_iff_listed hForm⟩
  · have hCanonical := hForm.canonical _ (mem_namesIn_iff.mp hMem)
    have hName : Location.IsEntryName name := hCanonical name (by simp [Location.child])
    exact ⟨hName.ne_empty, hName.no_slash⟩
  · rw [mem_namesIn_iff, contains_iff_has, Location.ofText_child path ⟨hEmpty, hSlash, hDot, hDots⟩]

/-- A directory, files with and without capitals and accents, and one further down. -/
def severalOps : List Operation :=
  [.mkdir "/a/c", .write "/a/é" "one", .write "/a/B" "two", .append "/a/c/x" "three"]

/-- A directory lists what is in it and not what is further down, and the root is not in
itself. -/
theorem list_shows_directory_severalOps :
    let t := (ofDirs ["/a/b", "/tmp"]).afterAll severalOps
    (t.isDir "a//." = true ∧ ∃ names, t.list "a//." = .ok names ∧ names.Pairwise (· < ·) ∧
      "é" ∈ names ∧ "c" ∈ names ∧ "x" ∉ names) ∧
    (.ofText "/a/b/../c/x" ≠ Location.root ∧ t.contains "/a/b/../c/x" = true ∧
      ∃ names, t.list "/a/c" = .ok names ∧ "x" ∈ names) ∧
    t.isDir "/" = true ∧ ∃ names, t.list "/" = .ok names ∧ "tmp" ∈ names ∧ "" ∉ names := by
  intro t
  obtain ⟨hLists, hListed⟩ := list_shows_directory ["/a/b", "/tmp"] severalOps
  have hDir : t.isDir "a//." = true := by decide +kernel
  have hRootDir : t.isDir "/" = true := by decide +kernel
  have hRoot : .ofText "/a/b/../c/x" ≠ Location.root := by decide +kernel
  have hThere : t.contains "/a/b/../c/x" = true := by decide +kernel
  refine ⟨⟨hDir, ?_⟩, ⟨hRoot, hThere, ?_⟩, hRootDir, ?_⟩
  · obtain ⟨names, hNames, hOrder, -, hMem⟩ := hLists "a//." hDir
    refine ⟨names, hNames, hOrder, ?_, ?_, ?_⟩
    · exact (hMem "é" (by decide) (by decide) (by decide) (by decide)).mpr (by decide +kernel)
    · exact (hMem "c" (by decide) (by decide) (by decide) (by decide)).mpr (by decide +kernel)
    · rw [hMem "x" (by decide) (by decide) (by decide) (by decide)]
      decide +kernel
  · obtain ⟨-, names, hNames, hMem⟩ := (hListed "/a/b/../c/x" hRoot).mp hThere
    exact ⟨names, hNames, hMem⟩
  · obtain ⟨names, hNames, -, hProper, hMem⟩ := hLists "/" hRootDir
    refine ⟨names, hNames, ?_, fun hEmpty => (hProper "" hEmpty).1 rfl⟩
    exact (hMem "tmp" (by decide) (by decide) (by decide) (by decide)).mpr (by decide +kernel)

end FileTree

end MemShell
