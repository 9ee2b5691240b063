import Mathlib.Data.List.TakeWhile
import MemShell.Proofs.NormalPaths
import MemShell.Proofs.Registrations

/-!
# Where programs are searched

A program is kept under one path, the simplest text of the path it was installed at. It is
found in two ways. A name with a slash is resolved and simplified first. A name without a
slash is put behind a directory of the search path as it stands there, without the slashes
at its end; that text is not simplified. So a program in `/bin` is not found along
`/usr/../bin`, and not along `/` if it is in the root, since the path `//name` keeps its two
slashes.

The place that a text names is yet another thing: all leading slashes are the one root to the
store. Two paths with the same place are the same program exactly if they start from the
same root.

## Main results

* `Path.normalize_child_iff` — for which directories the searched path is the resolved path.
* `find?_spelling_iff` — when a program is found however its path is spelled.
-/

namespace MemShell

open Location (IsEntryName)

/-! ## Slashes at the start -/

/-- Whether a text is read from a root, and from which, is settled when something else than a
slash has come. -/
theorem Anchor.ofChars_append_of_exists {cs : List Char} (h : ∃ c ∈ cs, c ≠ '/')
    (ds : List Char) : ofChars (cs ++ ds) = ofChars cs := by
  obtain ⟨c, hMem, hSlash⟩ := h
  match cs, hMem with
  | [c₁], hMem =>
      obtain rfl : c = c₁ := by simpa using hMem
      simp [ofChars, hSlash]
  | [c₁, c₂], hMem =>
      by_cases h₁ : c₁ = '/'
      · obtain rfl : c = c₂ := by simpa [h₁, hSlash] using hMem
        simp [ofChars, h₁, hSlash]
      · simp [ofChars, h₁]
  | c₁ :: c₂ :: c₃ :: rest, _ =>
      by_cases h₁ : c₁ = '/'
      · by_cases h₂ : c₂ = '/'
        · by_cases h₃ : c₃ = '/' <;> simp [ofChars, h₁, h₂, h₃]
        · simp [ofChars, h₁, h₂]
      · simp [ofChars, h₁]

/-- What does not start with a slash changes nothing at the start of a text. -/
theorem Anchor.ofChars_append_of_head? {cs ds : List Char} (hCs : cs ≠ [])
    (hDs : ds.head? ≠ some '/') : ofChars (cs ++ ds) = ofChars cs := by
  obtain ⟨hRelative, hRoot, hDouble⟩ := Path.ofChars_of_head?_ne hDs
  by_cases hOther : ∃ c ∈ cs, c ≠ '/'
  · exact ofChars_append_of_exists hOther ds
  · have hAll : ∀ c ∈ cs, c = '/' := by simpa using hOther
    match cs, hCs with
    | [c₁], _ =>
        obtain rfl := hAll c₁ (by simp)
        exact hRoot
    | [c₁, c₂], _ =>
        obtain rfl := hAll c₁ (by simp)
        obtain rfl := hAll c₂ (by simp)
        exact hDouble
    | c₁ :: c₂ :: c₃ :: rest, _ =>
        obtain rfl := hAll c₁ (by simp)
        obtain rfl := hAll c₂ (by simp)
        obtain rfl := hAll c₃ (by simp)
        rfl

theorem Anchor.ofChars_eq_relative_iff {cs : List Char} :
    ofChars cs = .relative ↔ cs.head? ≠ some '/' := by
  constructor
  · intro h hHead
    exact Path.ofChars_ne_relative hHead h
  · exact fun h => (Path.ofChars_of_head?_ne h).1

/-! ## Slashes at the end -/

namespace Registry

/-- What is dropped are slashes, and what is left does not end with one. -/
theorem exists_dropSlashes (dir : String) :
    (∃ m, dir.toList = (dropSlashes dir).toList ++ List.replicate m '/') ∧
      (dropSlashes dir).toList.getLast? ≠ some '/' := by
  have hLeft : (dropSlashes dir).toList = (dir.toList.reverse.dropWhile (· = '/')).reverse :=
    String.toList_ofList
  have hDropped : ∃ m, dir.toList.reverse.takeWhile (· = '/') = List.replicate m '/' :=
    ⟨_, List.eq_replicate_of_mem fun c hMem => by simpa using List.mem_takeWhile_imp hMem⟩
  constructor
  · obtain ⟨m, hDropped⟩ := hDropped
    refine ⟨m, ?_⟩
    have hParts := List.takeWhile_append_dropWhile (p := (· = '/')) (l := dir.toList.reverse)
    rw [hLeft, ← List.reverse_replicate, ← hDropped, ← List.reverse_append, hParts,
      List.reverse_reverse]
  · rw [hLeft, List.getLast?_reverse]
    intro hHead
    have hNot := List.head?_dropWhile_not (· = '/') dir.toList.reverse
    rw [hHead] at hNot
    simp at hNot

/-- A text that is left is not made of slashes only. -/
theorem exists_ne_slash {dir : String} (h : dropSlashes dir ≠ "") :
    ∃ c ∈ (dropSlashes dir).toList, c ≠ '/' := by
  have hSome : (dropSlashes dir).toList ≠ [] := fun hNil => h (String.toList_eq_nil_iff.mp hNil)
  refine ⟨_, List.getLast_mem hSome, fun hSlash => (exists_dropSlashes dir).2 ?_⟩
  rw [List.getLast?_eq_some_getLast hSome, hSlash]

end Registry

/-! ## One name further -/

namespace Path

theorem location_slashes (m : Nat) :
    Location.ofText (String.ofList (List.replicate m '/')) = .root := by
  induction m with
  | zero => decide
  | succ m ih =>
      have hText : String.ofList (List.replicate (m + 1) '/') =
          "/" ++ String.ofList (List.replicate m '/') := by
        apply String.toList_inj.mp
        simp [List.replicate_succ]
      rw [hText, location_slash, ih]

/-- The joined names with one more behind them. -/
theorem intercalate_concat (names : List String) (name : String) :
    "/".intercalate (names ++ [name]) =
      if names = [] then name else "/".intercalate names ++ "/" ++ name := by
  by_cases hNone : names = []
  · simp [hNone]
  · rw [if_neg hNone, String.intercalate_append_of_ne_nil hNone (List.cons_ne_nil name []),
      String.intercalate_singleton]

/-- A text that ends with something else than a slash is not a root. -/
theorem anchorText_ne {anchor : Anchor} {t : String} (h : ∃ c ∈ t.toList, c ≠ '/') :
    anchor.text ≠ t := by
  rintro rfl
  obtain ⟨c, hMem, hSlash⟩ := h
  cases anchor with
  | relative => simp [Anchor.text] at hMem
  | root => simp [Anchor.text, hSlash] at hMem
  | doubleRoot => simp [Anchor.text, hSlash] at hMem

/-- A name behind a directory that is not a root. -/
theorem normalize_child_of_below {dir name : String} (hDir : dir.startsWith "/" = true)
    (hBelow : ∃ c ∈ dir.toList, c ≠ '/') (hName : IsEntryName name) :
    normalize (dir ++ "/" ++ name) =
      if (Location.ofText dir).parts = [] then (Anchor.ofChars dir.toList).text ++ name
      else normalize dir ++ "/" ++ name := by
  have hAnchor : Anchor.ofChars (dir ++ "/" ++ name).toList = Anchor.ofChars dir.toList := by
    rw [String.append_assoc, String.toList_append]
    exact Anchor.ofChars_append_of_exists hBelow _
  have hRoot : Anchor.ofChars dir.toList ≠ .relative :=
    ofChars_ne_relative (startsWith_slash_iff.mp hDir)
  rw [normalize_of_anchored (hAnchor ▸ hRoot), hAnchor, normalize_of_anchored hRoot,
    Location.ofText_child dir hName]
  show _ ++ "/".intercalate ((Location.ofText dir).parts ++ [name]) = _
  rw [intercalate_concat]
  split
  · rfl
  · simp only [String.append_assoc]

/-- A name behind slashes. -/
theorem normalize_child_of_slashes {dir name : String} (hDir : dir.startsWith "/" = true)
    (hSlashes : Registry.dropSlashes dir = "") (hName : IsEntryName name) :
    normalize (dir ++ "/" ++ name) = if dir = "/" then "//" ++ name else "/" ++ name := by
  obtain ⟨m, hText⟩ := (Registry.exists_dropSlashes dir).1
  rw [hSlashes, String.toList_empty, List.nil_append] at hText
  obtain rfl : dir = String.ofList (List.replicate m '/') := by
    rw [← hText, String.ofList_toList]
  have hHead : name.toList.head? ≠ some '/' := fun hHead => hName.no_slash (List.mem_of_head? hHead)
  have hChars : (String.ofList (List.replicate m '/') ++ "/" ++ name).toList =
      List.replicate (m + 1) '/' ++ name.toList := by
    rw [String.toList_append, String.toList_append, hText, List.replicate_succ']
    rfl
  have hRoot : Anchor.ofChars (List.replicate (m + 1) '/' ++ name.toList) ≠ .relative :=
    ofChars_ne_relative (by simp [List.replicate_succ])
  rw [normalize_of_anchored (hChars ▸ hRoot), hChars, Location.ofText_child _ hName,
    location_slashes]
  show _ ++ "/".intercalate [name] = _
  rw [String.intercalate_singleton]
  rcases m with - | - | m
  · exact absurd (startsWith_slash_iff.mp hDir) (by decide)
  · have hAnchor : Anchor.ofChars (List.replicate 2 '/' ++ name.toList) = .doubleRoot :=
      (ofChars_of_head?_ne hHead).2.2
    rw [hAnchor, if_pos (by decide)]
    rfl
  · have hMore : String.ofList (List.replicate (m + 2) '/') ≠ "/" := by
      intro hEq
      simpa using congrArg (·.toList.length) hEq
    rw [if_neg hMore]
    rfl

/-- **The searched path is the resolved path** exactly for directories in their simplest form,
apart from slashes at the end, but not for the root, which is resolved to two slashes. -/
theorem normalize_child_iff {dir name : String} (hDir : dir.startsWith "/" = true)
    (hName : IsEntryName name) :
    normalize (dir ++ "/" ++ name) = Registry.dropSlashes dir ++ "/" ++ name ↔
      dir ≠ "/" ∧ (Registry.dropSlashes dir = "" ∨ normalize dir = Registry.dropSlashes dir) := by
  by_cases hSlashes : Registry.dropSlashes dir = ""
  · rw [normalize_child_of_slashes hDir hSlashes hName, hSlashes]
    by_cases hRoot : dir = "/" <;> simp [hRoot]
  · have hOther := Registry.exists_ne_slash hSlashes
    have hBelow : ∃ c ∈ dir.toList, c ≠ '/' := by
      obtain ⟨m, hText⟩ := (Registry.exists_dropSlashes dir).1
      obtain ⟨c, hMem, hSlash⟩ := hOther
      exact ⟨c, hText ▸ List.mem_append_left _ hMem, hSlash⟩
    have hNotRoot : dir ≠ "/" := by
      rintro rfl
      obtain ⟨c, hMem, hSlash⟩ := hBelow
      exact hSlash (List.mem_singleton.mp hMem)
    rw [normalize_child_of_below hDir hBelow hName]
    simp only [hNotRoot, hSlashes, ne_eq, not_false_eq_true, true_and, false_or]
    split
    · rename_i hNone
      have hRoot : normalize dir = (Anchor.ofChars dir.toList).text := by
        rw [normalize_of_anchored (ofChars_ne_relative (startsWith_slash_iff.mp hDir)), hNone]
        simp
      have hBehind : ∃ c ∈ (Registry.dropSlashes dir ++ "/").toList, c ≠ '/' := by
        obtain ⟨c, hMem, hSlash⟩ := hOther
        exact ⟨c, by simp [hMem], hSlash⟩
      rw [hRoot, String.append_left_inj]
      exact iff_of_false (anchorText_ne hBehind) (anchorText_ne hOther)
    · rw [String.append_left_inj, String.append_left_inj]

end Path

/-! ## Installed programs -/

/-- A path that starts with a slash is resolved alike from everywhere. -/
theorem resolvePath_of_absolute {path : String} (h : path.startsWith "/" = true)
    (env : Table String String) : resolvePath env path = Path.normalize path := by
  rw [resolvePath, Path.join, if_pos h]

namespace Registry

variable {α : Type} {entry : Nat → α} {env env' : Table String String} {name name' : String}

/-- The registry after programs were installed at these paths. -/
def installed (paths : List String) (entry : Nat → α) : Registry α :=
  built (paths.map .install) entry

/-- Wherever programs were installed, the two searches find the same one. -/
def FindAlike (entry : Nat → α) (env : Table String String) (name : String)
    (env' : Table String String) (name' : String) : Prop :=
  ∀ paths : List String, (∀ path ∈ paths, path.startsWith "/" = true) →
    (installed paths entry).find? env name = (installed paths entry).find? env' name'

theorem FindAlike.symm (h : FindAlike entry env name env' name') :
    FindAlike entry env' name' env name :=
  fun paths hPaths => (h paths hPaths).symm

theorem contains_installed {path : String} (h : path.startsWith "/" = true) (other : String) :
    (installed [path] entry).programs.contains other = true ↔ Path.normalize path = other := by
  rw [installed, contains_programs_built_iff]
  simp only [List.map_cons, List.map_nil, List.mem_singleton, exists_eq_left,
    Registration.Installs, Path.normalize_absolute h, true_and]

/-- Searches that look at the same paths find the same programs. -/
theorem FindAlike.of_candidates (h : candidates env name = candidates env' name') :
    FindAlike entry env name env' name' := by
  intro paths _
  rw [find?, find?, h]

/-- A search that finds every program the other looks for first looks there too. -/
theorem FindAlike.mem_candidates (h : FindAlike entry env name env' name') {path : String}
    (hFirst : ∃ rest, candidates env name = path :: rest) (hAbsolute : path.startsWith "/" = true)
    (hNormal : Path.normalize path = path) : path ∈ candidates env' name' := by
  obtain ⟨rest, hFirst⟩ := hFirst
  have hThere : (installed [path] entry).programs.contains path = true :=
    (contains_installed hAbsolute path).mpr hNormal
  have hFound : (installed [path] entry).find? env name = some path := by
    rw [find?, hFirst, List.find?_cons_of_pos hThere]
  have hOther : (installed [path] entry).find? env' name' = some path :=
    (h [path] (by simpa using hAbsolute)).symm.trans hFound
  exact List.mem_of_find?_eq_some hOther

theorem candidates_of_slash (h : '/' ∈ name.toList) (env : Table String String) :
    candidates env name = [resolvePath env name, resolvePath env name ++ programSuffix] := by
  rw [candidates, if_pos h]

/-- What a search path of one directory makes of a name. -/
theorem candidates_of_directory {dir : String} (hDir : dir ≠ "") (hColon : ':' ∉ dir.toList)
    (hName : '/' ∉ name.toList) (env : Table String String) :
    candidates (env.insert "PATH" dir) name =
      [dropSlashes dir ++ "/" ++ name, dropSlashes dir ++ "/" ++ name ++ programSuffix] := by
  have hPath : (env.insert "PATH" dir).textOr "PATH" defaultPath = dir := by
    unfold Table.textOr
    rw [Table.get?_insert_self]
    split
    case h_1 hEmpty => exact absurd (Option.some.inj hEmpty) hDir
    case h_2 hNone => cases hNone
    case h_3 value _ hValue => exact (Option.some.inj hValue).symm
  have hDirs : searchPath (env.insert "PATH" dir) = [dir] := by
    rw [searchPath, hPath, Text.split, Text.splitAt_of_not_mem hColon]
    simp [hDir]
  rw [candidates, if_neg hName, hDirs]
  rfl

/-- A name is still one with the suffix of programs. -/
theorem isEntryName_suffixed (h : IsEntryName name) : IsEntryName (name ++ programSuffix) where
  ne_empty := by simp [programSuffix]
  no_slash := by
    have hSuffix : '/' ∉ programSuffix.toList := by decide
    simp [h.no_slash, hSuffix]
  ne_dot := by
    intro hEq
    have hLength := congrArg (·.toList.length) hEq
    simp [programSuffix] at hLength
  ne_dots := by
    intro hEq
    have hLength := congrArg (·.toList.length) hEq
    simp [programSuffix] at hLength

/-- **The search along one directory** finds what the path finds. -/
theorem findAlike_directory_iff {dir : String} (hDir : dir.startsWith "/" = true)
    (hColon : ':' ∉ dir.toList) (hName : IsEntryName name) :
    FindAlike entry (env.insert "PATH" dir) name env (dir ++ "/" ++ name) ↔
      dir ≠ "/" ∧ (dropSlashes dir = "" ∨ Path.normalize dir = dropSlashes dir) := by
  have hAbsolute : (dir ++ "/" ++ name).startsWith "/" = true :=
    startsWith_slash_append (startsWith_slash_append hDir "/") name
  have hSlash : '/' ∈ (dir ++ "/" ++ name).toList := by simp
  have hSearched := candidates_of_directory (ne_empty_of_startsWith_slash hDir) hColon
    hName.no_slash env
  have hResolved := candidates_of_slash hSlash env
  rw [resolvePath_of_absolute hAbsolute] at hResolved
  rw [← Path.normalize_child_iff hDir hName]
  constructor
  · intro hAlike
    have hMem := hAlike.symm.mem_candidates ⟨_, hResolved⟩ (Path.normalize_absolute hAbsolute)
      (Path.normalize_normalize _)
    rw [hSearched, List.mem_cons, List.mem_singleton] at hMem
    rcases hMem with hSame | hSuffixed
    · exact hSame
    · -- the last names differ
      have hText : dropSlashes dir ++ "/" ++ name ++ programSuffix =
          dropSlashes dir ++ "/" ++ (name ++ programSuffix) := String.append_assoc
      rw [hText] at hSuffixed
      have hPlace := congrArg (fun t => (Location.ofText t).name) hSuffixed
      simp only [Location.ofText_normalize, Location.ofText_child _ hName,
        Location.ofText_child _ (isEntryName_suffixed hName), Location.name_child] at hPlace
      have hLength := congrArg (·.toList.length) hPlace
      simp [programSuffix] at hLength
  · intro hSame
    exact .of_candidates (by rw [hSearched, hResolved, hSame])

/-- How a resolved path starts is not changed by the suffix. -/
theorem anchor_suffixed (env : Table String String) (name : String) :
    Anchor.ofChars (resolvePath env name ++ programSuffix).toList =
      Anchor.ofChars (resolvePath env name).toList := by
  have hSome : (resolvePath env name).toList ≠ [] := fun hNil =>
    Path.normalize_ne_empty _ (String.toList_eq_nil_iff.mp hNil)
  rw [String.toList_append]
  exact Anchor.ofChars_append_of_head? hSome (by decide)

/-- Nothing is installed under a relative path. -/
theorem find?_of_relative (hName : '/' ∈ name.toList)
    (hRelative : Anchor.ofChars (resolvePath env name).toList = .relative)
    (paths : List String) : (installed paths entry).find? env name = none := by
  have hNot : ∀ path, Anchor.ofChars path.toList = .relative →
      ¬ (installed paths entry).programs.contains path = true := by
    intro path hPath hThere
    exact Anchor.ofChars_eq_relative_iff.mp hPath
      (startsWith_slash_iff.mp (startsWith_of_contains_programs hThere))
  rw [find?, candidates_of_slash hName]
  simp only [List.find?_eq_none, List.forall_mem_cons, List.not_mem_nil, false_imp_iff,
    implies_true, and_true]
  exact ⟨hNot _ hRelative, hNot _ ((anchor_suffixed env name).trans hRelative)⟩

/-- A program that both paths find is under a path that starts like both. -/
theorem FindAlike.anchor_eq (h : FindAlike entry env name env' name')
    (hName : '/' ∈ name.toList) (hName' : '/' ∈ name'.toList)
    (hRoot : Anchor.ofChars (resolvePath env name).toList ≠ .relative) :
    Anchor.ofChars (resolvePath env name).toList =
      Anchor.ofChars (resolvePath env' name').toList := by
  have hAbsolute : (resolvePath env name).startsWith "/" = true := by
    rw [startsWith_slash_iff]
    exact not_not.mp fun hNot => hRoot (Anchor.ofChars_eq_relative_iff.mpr hNot)
  have hMem := h.mem_candidates ⟨_, candidates_of_slash hName env⟩ hAbsolute
    (Path.normalize_normalize _)
  rw [candidates_of_slash hName', List.mem_cons, List.mem_singleton] at hMem
  rcases hMem with hSame | hSuffixed
  · rw [hSame]
  · rw [hSuffixed, anchor_suffixed]

/-- **Two paths with the same place** find the same programs exactly if they start from the
same root. -/
theorem findAlike_paths_iff (hName : '/' ∈ name.toList) (hName' : '/' ∈ name'.toList)
    (hPlace : Location.ofText (resolvePath env name) = .ofText (resolvePath env' name')) :
    FindAlike entry env name env' name' ↔
      Anchor.ofChars (resolvePath env name).toList =
        Anchor.ofChars (resolvePath env' name').toList := by
  constructor
  · intro hAlike
    by_cases hRoot : Anchor.ofChars (resolvePath env name).toList = .relative
    · by_cases hRoot' : Anchor.ofChars (resolvePath env' name').toList = .relative
      · rw [hRoot, hRoot']
      · exact (hAlike.symm.anchor_eq hName' hName hRoot').symm
    · exact hAlike.anchor_eq hName hName' hRoot
  · intro hAnchor paths _
    by_cases hRoot : Anchor.ofChars (resolvePath env name).toList = .relative
    · rw [find?_of_relative hName hRoot, find?_of_relative hName' (hAnchor ▸ hRoot)]
    · have hSame : resolvePath env name = resolvePath env' name' :=
        calc resolvePath env name
            = Path.normalize (resolvePath env name) := (Path.normalize_normalize _).symm
          _ = Path.normalize (resolvePath env' name') := by
            rw [Path.normalize_of_anchored hRoot, Path.normalize_of_anchored (hAnchor ▸ hRoot),
              hAnchor, hPlace]
          _ = resolvePath env' name' := Path.normalize_normalize _
      rw [find?, find?, candidates_of_slash hName, candidates_of_slash hName', hSame]

/-- **When a program is found however it is named**, for every way to install programs. Along
one directory a name is found like the path behind it exactly if the directory is in its
simplest form, apart from slashes at the end, and is not the root; two paths with the same
place find the same exactly if they start from the same root. -/
theorem find?_spelling_iff (entry : Nat → α) (env : Table String String) :
    (∀ dir name : String, dir.startsWith "/" = true → ':' ∉ dir.toList → IsEntryName name →
      (FindAlike entry (env.insert "PATH" dir) name env (dir ++ "/" ++ name) ↔
        dir ≠ "/" ∧ (dropSlashes dir = "" ∨ Path.normalize dir = dropSlashes dir))) ∧
    ∀ name name' : String, '/' ∈ name.toList → '/' ∈ name'.toList →
      Location.ofText (resolvePath env name) = .ofText (resolvePath env name') →
      (FindAlike entry env name env name' ↔
        Anchor.ofChars (resolvePath env name).toList =
          Anchor.ofChars (resolvePath env name').toList) :=
  ⟨fun _ _ hDir hColon hName => findAlike_directory_iff hDir hColon hName,
    fun _ _ hName hName' hPlace => findAlike_paths_iff hName hName' hPlace⟩

theorem find?_spelling_iff_simplestOnly :
    ¬ FindAlike (fun _ => ()) (Table.insert ∅ "PATH" "/usr/../bin") "x" ∅
        ("/usr/../bin" ++ "/" ++ "x") ∧
      FindAlike (fun _ => ()) (Table.insert ∅ "PATH" "/bin/") "x" ∅ ("/bin/" ++ "/" ++ "x") ∧
      ¬ FindAlike (fun _ => ()) ∅ "/bin/x" ∅ "//bin/x" := by
  have hName : IsEntryName "x" := ⟨by decide, by decide, by decide, by decide⟩
  obtain ⟨hSearched, hPaths⟩ := find?_spelling_iff (fun _ => ()) ∅
  refine ⟨fun hAlike => ?_, ?_, fun hAlike => ?_⟩
  · have hAbsolute : "/usr/../bin".startsWith "/" = true := startsWith_slash_iff.mpr rfl
    have hDir : dropSlashes "/usr/../bin" = "/usr/../bin" := by rfl
    have hSimple : Path.normalize "/usr/../bin" = "/bin" := by rfl
    have hNot := (hSearched "/usr/../bin" "x" hAbsolute (by decide) hName).mp hAlike
    rw [hDir, hSimple] at hNot
    exact absurd hNot (by decide)
  · have hAbsolute : "/bin/".startsWith "/" = true := startsWith_slash_iff.mpr rfl
    have hDir : dropSlashes "/bin/" = "/bin" := by rfl
    have hSimple : Path.normalize "/bin/" = "/bin" := by rfl
    exact (hSearched "/bin/" "x" hAbsolute (by decide) hName).mpr
      ⟨by decide, .inr (hSimple.trans hDir.symm)⟩
  · have hNot := (hPaths "/bin/x" "//bin/x" (by decide) (by decide) (by decide +kernel)).mp hAlike
    exact absurd hNot (by decide +kernel)

end Registry

end MemShell
