import MemShell.Proofs.NormalPaths

/-!
# Stored paths

Many texts lead to one place, and the store knows the place by one path. This path can be
had from a text without asking for a place: read the text from the root, simplify it, and
put one slash where its first slashes were (`Path.stored`). The last step is needed because
a simplified text keeps two slashes at its start. That the way through texts and the way
through places come to the same path (`Path.stored_eq`) is what the two stacks of
`NormalPaths` are for: with a slash in front no `..` is left over.

The stored path is a normal form. It is one slash, or names with a slash before each
(`Path.IsStored`); exactly such texts are left as they are; and it tells the store all
there is to know about a text, and nothing else (`FileTree.SameEntry`).

A command simplifies a path before it hands it on, and at that time the path may be
relative, or start with one slash or with two. None of this reaches the store, since the
simplified text leads to the same place.

## Main results

* `Path.stored_eq` — the stored path is the path of the place.
* `Path.stored_eq_self_iff` — which texts are stored paths.
* `FileTree.sameEntry_iff` — what the store makes of a text is told by its stored path.
* `Path.stored_canonical` — all of this, and where resolved paths lead.
-/

namespace MemShell

open Location (IsEntryName)

namespace Path

/-! ## From a text to the path -/

/-- A text read from the root: a slash stands in front of it unless it has one. -/
def rooted (s : String) : String :=
  if s.startsWith "/" then s else "/" ++ s

/-- A text without the slashes at its start. -/
def unrooted (s : String) : String :=
  String.ofList (s.toList.dropWhile (· = '/'))

/-- The path under which the store has what a text leads to. -/
def stored (s : String) : String :=
  "/" ++ unrooted (normalize (rooted s))

theorem rooted_absolute (s : String) : (rooted s).startsWith "/" = true := by
  unfold rooted
  split
  · assumption
  · exact startsWith_slash_append (startsWith_slash_iff.mpr rfl) s

/-- All texts are read from the root anyway. -/
theorem location_rooted (s : String) : Location.ofText (rooted s) = .ofText s := by
  unfold rooted
  split
  · rfl
  · exact location_slash s

/-- The slashes of a root are dropped, and nothing behind them. -/
theorem unrooted_append (anchor : Anchor) {t : String} (h : t.toList.head? ≠ some '/') :
    unrooted (anchor.text ++ t) = t := by
  have hKept : t.toList.dropWhile (· = '/') = t.toList := by
    cases hChars : t.toList with
    | nil => rfl
    | cons c cs =>
        have hFirst : c ≠ '/' := fun hEq => h (by rw [hChars, hEq]; rfl)
        simp [hFirst]
  cases anchor <;> simp [unrooted, Anchor.text, hKept]

/-- **The stored path** is the path of the place. -/
theorem stored_eq (s : String) : stored s = (Location.ofText s).text := by
  have hRoot : Anchor.ofChars (rooted s).toList ≠ .relative :=
    ofChars_ne_relative (startsWith_slash_iff.mp (rooted_absolute s))
  have hNormal : Normal ⟨.root, (Location.ofText s).parts⟩ :=
    ⟨0, _, rfl, Location.canonical_ofText s, fun _ => rfl⟩
  rw [stored, normalize_of_anchored hRoot, location_rooted, unrooted_append _ hNormal.head?_ne]
  rfl

/-- Texts have the same stored path exactly if they lead to the same place. -/
theorem stored_eq_stored_iff {s s' : String} :
    stored s = stored s' ↔ Location.ofText s = .ofText s' := by
  have hBack : ∀ t, Location.ofText (Location.ofText t).text = .ofText t := fun t =>
    Location.ofText_text (Location.canonical_ofText t)
  rw [stored_eq, stored_eq]
  constructor
  · intro hText
    calc Location.ofText s
        = .ofText (Location.ofText s).text := (hBack s).symm
      _ = .ofText (Location.ofText s').text := by rw [hText]
      _ = .ofText s' := hBack s'
  · exact congrArg Location.text

/-! ## Which texts are stored paths -/

/-- One slash, or names with a slash before each. -/
def IsStored (s : String) : Prop :=
  ∃ names : List String, (∀ name ∈ names, IsEntryName name) ∧ s = "/" ++ "/".intercalate names

theorem isStored_stored (s : String) : IsStored (stored s) :=
  ⟨(Location.ofText s).parts, Location.canonical_ofText s, stored_eq s⟩

/-- **Stored paths** are the texts that storing leaves as they are. -/
theorem stored_eq_self_iff {s : String} : stored s = s ↔ IsStored s := by
  constructor
  · intro hSame
    exact hSame ▸ isStored_stored s
  · rintro ⟨names, hNames, rfl⟩
    have hBack : Location.ofText (Location.text ⟨names⟩) = ⟨names⟩ := Location.ofText_text hNames
    exact (stored_eq _).trans (congrArg Location.text hBack)

/-- Simplifying a text first changes nothing. -/
theorem stored_normalize (s : String) : stored (normalize s) = stored s :=
  stored_eq_stored_iff.mpr (Location.ofText_normalize s)

end Path

/-! ## What the store makes of a text -/

namespace FileTree

/-- Both texts stand for the same entry, whatever is done to whatever store. -/
structure SameEntry (path path' : String) : Prop where
  read (t : FileTree) : t.read path = t.read path'
  contains (t : FileTree) : t.contains path = t.contains path'
  isDir (t : FileTree) : t.isDir path = t.isDir path'
  list (t : FileTree) : t.list path = t.list path'
  write (t : FileTree) (content : String) : t.write path content = t.write path' content
  append (t : FileTree) (content : String) : t.append path content = t.append path' content
  mkdir (t : FileTree) : t.mkdir path = t.mkdir path'
  mkdirAll (t : FileTree) : t.mkdirAll path = t.mkdirAll path'

variable {path path' : String}

theorem sameEntry_of_location (h : Location.ofText path = .ofText path') :
    SameEntry path path' where
  read t := by simp only [FileTree.read, h]
  contains t := by simp only [FileTree.contains, h]
  isDir t := by simp only [FileTree.isDir, h]
  list t := by simp only [FileTree.list, h]
  write t content := by simp only [FileTree.write, writable, h]
  append t content := by simp only [FileTree.append, writable, h]
  mkdir t := by simp only [FileTree.mkdir, h]
  mkdirAll t := by simp only [FileTree.mkdirAll, h]

/-- There is nothing to read in an empty store, and the fault tells where it was looked for. -/
theorem exists_read_empty (path : String) :
    ∃ fault, empty.read path = .error fault ∧ fault.location? = some (.ofText path) := by
  unfold FileTree.read
  by_cases hDir : empty.hasDir (.ofText path) = true
  · exact ⟨_, if_pos hDir, rfl⟩
  · exact ⟨_, if_neg hDir, rfl⟩

/-- **What the store makes of a text** is told by its stored path. -/
theorem sameEntry_iff : SameEntry path path' ↔ Path.stored path = Path.stored path' := by
  rw [Path.stored_eq_stored_iff]
  constructor
  · intro hSame
    obtain ⟨fault, hRead, hLocation⟩ := exists_read_empty path
    obtain ⟨fault', hRead', hLocation'⟩ := exists_read_empty path'
    rw [hSame.read, hRead'] at hRead
    obtain rfl : fault' = fault := Except.error.inj hRead
    exact Option.some.inj (hLocation.symm.trans hLocation')
  · exact sameEntry_of_location

end FileTree

namespace Path

open FileTree (SameEntry)

/--
**Stored paths are a normal form.** Every text has the stored path that its place has, and
the store treats two texts alike exactly if their stored paths are the same. A stored path
is one slash, or names with a slash before each; storing it again leaves it as it is, as it
leaves exactly the texts of that form. Simplifying a text first changes nothing. So a
command that resolves a path, from whatever working directory, hands on a text that stands
for the same entry as the stored path of the two joined.
-/
theorem stored_canonical (path : String) :
    stored path = (Location.ofText path).text ∧
      (∀ other, SameEntry path other ↔ stored path = stored other) ∧
      IsStored (stored path) ∧
      stored (stored path) = stored path ∧
      (stored path = path ↔ IsStored path) ∧
      stored (normalize path) = stored path ∧
      ∀ {σ : Type} (ctx : Context σ),
        stored (ctx.resolve path) = stored (join (ctx.env.textOr "PWD" "/") path) ∧
          SameEntry (ctx.resolve path) (stored (join (ctx.env.textOr "PWD" "/") path)) := by
  have hAgain : ∀ s, stored (stored s) = stored s := fun s =>
    stored_eq_self_iff.mpr (isStored_stored s)
  refine ⟨stored_eq path, fun _ => FileTree.sameEntry_iff, isStored_stored path, hAgain path,
    stored_eq_self_iff, stored_normalize path, fun ctx => ?_⟩
  have hResolved : stored (ctx.resolve path) = stored (join (ctx.env.textOr "PWD" "/") path) :=
    stored_normalize _
  exact ⟨hResolved, FileTree.sameEntry_iff.mpr (hResolved.trans (hAgain _).symm)⟩

/-- Two slashes are kept by the simplest text and are one to the store. -/
example : normalize "//a/../../b" = "//b" ∧ stored "//a/../../b" = "/b" ∧
    normalize "a/../../b" = "../b" ∧ stored "a/../../b" = "/b" := by
  decide +kernel

end Path

end MemShell
