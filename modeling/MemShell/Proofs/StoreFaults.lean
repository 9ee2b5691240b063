import MemShell.Proofs.StoreTrees

/-!
# When the store refuses, and what it changes

A file can be written where no directory is and where the place above is a directory. The
store looks at these two in an order of its own: it asks whether the place above is a
directory before it asks whether it is a file. A user would put it differently. What is
wrong is that the place is a directory, or that the place above is a file, or that it is
not there (`Refuses`). The two agree because the store is a tree: no place is a file and a
directory at once.

What an operation changes is said of paths, since that is all a user has. Many texts lead
to one place, and all of them must show the new content; a text that leads elsewhere must
show what it showed before (`Replaced`).

That a fault leaves the store alone is said of operations that work on the store itself,
step by step (`Operation.perform`), so that a step could be left behind. None is: each of
them makes its change last, and making directories one below the other fails before the
first is made.

## Main results

* `writable_eq_error_iff` — why a file may not be written.
* `Operation.perform_eq` — an operation is done as a whole or not at all.
* `write_append_refuses_or_replaces` — writing and appending, from every store that can be
  reached.
-/

namespace MemShell.FileTree

/-! ## Refusals -/

/-- Why no file can be written at a place. -/
inductive Refuses (t : FileTree) (l : Location) : Fault → Prop
  | isDirectory (hDir : t.hasDir l = true) : Refuses t l (.isDirectory l)
  | notDirectory (hNoDir : t.hasDir l = false) (hFile : t.hasFile l.parent = true) :
      Refuses t l (.notDirectory l.parent)
  | notFound (hNoDir : t.hasDir l = false) (hMissing : ¬ t.Has l.parent) :
      Refuses t l (.notFound l.parent)

section Writable

variable {t : FileTree} {path : String}

/-- **Why a file may not be written**, in a store that is a tree. -/
theorem writable_eq_error_iff (hForm : t.WellFormed) {fault : Fault} :
    t.writable path = .error fault ↔ t.Refuses (.ofText path) fault := by
  unfold writable
  constructor
  · intro h
    cases hDir : t.hasDir (.ofText path) with
    | true =>
        obtain rfl : .isDirectory (.ofText path) = fault := by simpa [hDir] using h
        exact .isDirectory hDir
    | false =>
        cases hParent : t.hasDir (Location.ofText path).parent with
        | true => simp [hDir, hParent] at h
        | false =>
            cases hFile : t.hasFile (Location.ofText path).parent with
            | true =>
                obtain rfl : .notDirectory (Location.ofText path).parent = fault := by
                  simpa [hDir, hParent, hFile] using h
                exact .notDirectory hDir hFile
            | false =>
                obtain rfl : .notFound (Location.ofText path).parent = fault := by
                  simpa [hDir, hParent, hFile] using h
                exact .notFound hDir (by simp [Has, hParent, hFile])
  · intro h
    cases h with
    | isDirectory hDir => simp [hDir]
    | notDirectory hNoDir hFile =>
        -- the place above is a file, so it is no directory
        have hParent : t.hasDir (Location.ofText path).parent = false :=
          Bool.eq_false_iff.mpr fun hDir => hForm.not_both _ ⟨hFile, hDir⟩
        simp [hNoDir, hParent, hFile]
    | notFound hNoDir hMissing =>
        obtain ⟨hFile, hParent⟩ := not_or.mp hMissing
        simp [hNoDir, hParent, hFile]

/-- Whatever would be entered, the refusal is the same. -/
theorem enter_eq_error_iff (hForm : t.WellFormed) {fault : Fault} (content : Location → String) :
    (t.writable path).map (fun l => { t with files := t.files.insert l (content l) }) =
      .error fault ↔ t.Refuses (.ofText path) fault := by
  rw [← writable_eq_error_iff hForm]
  cases t.writable path <;> simp [Except.map]

/-! ## A new content -/

/-- Every path to the place shows the content, and every other path shows what it did. -/
structure Replaced (t t' : FileTree) (l : Location) (content : String) : Prop where
  here : ∀ path, .ofText path = l → t'.read path = .ok content
  elsewhere : ∀ path, .ofText path ≠ l → t'.read path = t.read path ∧
    t'.contains path = t.contains path ∧ t'.isDir path = t.isDir path

theorem replaced_insert {l : Location} (hNoDir : t.hasDir l = false) (content : String) :
    Replaced t { t with files := t.files.insert l content } l content := by
  constructor
  · intro path hSame
    have hStill : hasDir { t with files := t.files.insert l content } l = false := hNoDir
    simp [read, hSame, hStill]
  · intro path hOther
    have hGet : (t.files.insert l content).get? (.ofText path) = t.files.get? (.ofText path) := by
      rw [Table.get?_insert, if_neg (Ne.symm hOther)]
    refine ⟨?_, ?_, rfl⟩
    · simp only [read, hasDir, hGet]
      rfl
    · simp only [contains, hasFile, hasDir, Table.contains, hGet]

/-- A content is entered where nothing speaks against it. -/
theorem enter_of_not_refuses (hForm : t.WellFormed)
    (hFree : ∀ fault, ¬ t.Refuses (.ofText path) fault) (content : Location → String) :
    ∃ t', (t.writable path).map (fun l => { t with files := t.files.insert l (content l) }) =
      .ok t' ∧ Replaced t t' (.ofText path) (content (.ofText path)) := by
  cases hPlace : t.writable path with
  | error fault => exact absurd ((writable_eq_error_iff hForm).mp hPlace) (hFree fault)
  | ok l =>
      obtain ⟨rfl, hNoDir, -⟩ := writable_eq_ok_iff.mp hPlace
      exact ⟨_, rfl, replaced_insert hNoDir _⟩

/-- What is there before, or the empty text. -/
theorem getD_read (hNoDir : t.hasDir (.ofText path) = false) :
    (t.read path).toOption.getD "" = (t.files.get? (.ofText path)).getD "" := by
  unfold read
  cases hGet : t.files.get? (.ofText path) <;> simp [hNoDir, hGet] <;> rfl

theorem append_of_not_refuses (hForm : t.WellFormed)
    (hFree : ∀ fault, ¬ t.Refuses (.ofText path) fault) (content : String) :
    ∃ t', t.append path content = .ok t' ∧
      Replaced t t' (.ofText path) ((t.read path).toOption.getD "" ++ content) := by
  have hNoDir : t.hasDir (.ofText path) = false :=
    Bool.eq_false_iff.mpr fun hDir => hFree _ (.isDirectory hDir)
  rw [getD_read hNoDir]
  exact enter_of_not_refuses hForm hFree fun l => (t.files.get? l).getD "" ++ content

end Writable

/-! ## Operations in place -/

/-- The place that a path leads to, if a file may be written there. -/
def place (path : String) : EStateM Fault FileTree Location := fun t =>
  match t.writable path with
  | .ok l => .ok l t
  | .error fault => .error fault t

/-- Does an operation in the store itself, step by step. What was done before a fault
stays. -/
def Operation.perform : Operation → EStateM Fault FileTree Unit
  | write path content => do
      let l ← place path
      modify fun t => { t with files := t.files.insert l content }
  | append path content => do
      let l ← place path
      modify fun t => { t with files := t.files.insert l ((t.files.get? l).getD "" ++ content) }
  | mkdir path => do
      let l := Location.ofText path
      let t ← get
      if t.hasFile l then throw (.notDirectory l)
      else if t.hasDir l.parent then modify (·.addDir l)
      else throw (.notFound l.parent)
  | mkdirAll path => enterDirs (Location.ofText path).parts.reverse

/-- The steps of an operation come to what the operation is said to give. -/
theorem Operation.perform_eq (op : Operation) (t : FileTree) :
    op.perform t = inPlace op.result t := by
  cases op with
  | write path content =>
      show EStateM.bind (place path) _ t = _
      rw [EStateM.bind, place, inPlace]
      simp only [result, FileTree.write]
      cases t.writable path <;> rfl
  | append path content =>
      show EStateM.bind (place path) _ t = _
      rw [EStateM.bind, place, inPlace]
      simp only [result, FileTree.append]
      cases t.writable path <;> rfl
  | mkdir path =>
      show (if _ then _ else if _ then _ else _ : EStateM Fault FileTree Unit) t = _
      simp only [inPlace, result, FileTree.mkdir]
      split
      · rfl
      · split <;> rfl
  | mkdirAll path => exact enterDirs_eq t _

/-- An operation that ends by a fault leaves the store as it was. -/
theorem Operation.eq_of_perform_eq_error {op : Operation} {t t' : FileTree} {fault : Fault}
    (h : op.perform t = .error fault t') : t' = t := by
  rw [Operation.perform_eq, inPlace] at h
  cases hResult : op.result t with
  | ok t₁ =>
      rw [hResult] at h
      cases h
  | error fault' =>
      rw [hResult] at h
      cases h
      rfl

/-! ## Stores that can be reached -/

/-- Every store that can be reached is a tree. -/
theorem wellFormed_reached (paths : List String) (ops : List Operation) :
    ((ofDirs paths).afterAll ops).WellFormed := by
  have hMade : (ofDirs paths).WellFormed := by
    rw [ofDirs_eq]
    exact (kept_afterAll _ empty wellFormed_empty).1
  exact (kept_afterAll ops _ hMade).1

/--
**The store refuses exactly when it must, and changes nothing else.** In every store that
can be reached, writing and appending fail in the one way that the place and the place above
it call for. Where nothing speaks against it they succeed: every path to the place then
shows the new text, or the old one followed by it, and every other path shows what it did.
Any operation that is done step by step in the store itself, and ends by a fault, has left
all files and directories as they were.
-/
theorem write_append_refuses_or_replaces (paths : List String) (ops : List Operation) :
    let t := (ofDirs paths).afterAll ops
    (∀ (path content : String) (fault : Fault),
      (t.write path content = .error fault ↔ t.Refuses (.ofText path) fault) ∧
        (t.append path content = .error fault ↔ t.Refuses (.ofText path) fault)) ∧
    (∀ path : String, (∀ fault, ¬ t.Refuses (.ofText path) fault) → ∀ content : String,
      (∃ t', t.write path content = .ok t' ∧ Replaced t t' (.ofText path) content) ∧
        ∃ t', t.append path content = .ok t' ∧
          Replaced t t' (.ofText path) ((t.read path).toOption.getD "" ++ content)) ∧
    ∀ op : Operation, op.perform t = inPlace op.result t ∧
      ∀ (fault : Fault) (t' : FileTree), op.perform t = .error fault t' → t' = t := by
  intro t
  have hForm : t.WellFormed := wellFormed_reached paths ops
  refine ⟨fun path content fault => ?_, fun path hFree content => ?_, fun op => ?_⟩
  · exact ⟨enter_eq_error_iff hForm _, enter_eq_error_iff hForm _⟩
  · have hWrite := enter_of_not_refuses hForm hFree fun _ => content
    exact ⟨hWrite, append_of_not_refuses hForm hFree content⟩
  · exact ⟨op.perform_eq t, fun fault t' => Operation.eq_of_perform_eq_error⟩

/-- A file next to a directory, and a text that could not be written. -/
def refusedOps : List Operation :=
  [.write "/a/f" "one", .write "/nope/x" "lost", .mkdir "/a/g/"]

/-- Each of the refusals, a file that grows, and directories that cannot be made below it. -/
theorem write_append_refuses_or_replaces_refusedOps :
    let t := (ofDirs ["/a/b"]).afterAll refusedOps
    (t.write "/.." "x" = .error (.isDirectory .root) ∧
      t.append "/a//b/" "x" = .error (.isDirectory ⟨["a", "b"]⟩) ∧
      t.write "/a/f/x" "x" = .error (.notDirectory ⟨["a", "f"]⟩) ∧
      t.append "/nope/x" "x" = .error (.notFound ⟨["nope"]⟩)) ∧
    ((∀ fault, ¬ t.Refuses (.ofText "a/./f") fault) ∧
      ∃ t', t.append "a/./f" " two" = .ok t' ∧ t'.read "/b/../a/f" = .ok "one two" ∧
        t'.isDir "/a/g" = t.isDir "/a/g") ∧
    ∃ t', (Operation.mkdirAll "/a/f/x/y").perform t = .error (.notDirectory ⟨["a", "f"]⟩) t' ∧
      t' = t := by
  intro t
  obtain ⟨hFaults, hDone, hPerformed⟩ := write_append_refuses_or_replaces ["/a/b"] refusedOps
  have hFree : ∀ fault, ¬ t.Refuses (.ofText "a/./f") fault := by
    have hNoDir : t.hasDir (.ofText "a/./f") = false := by decide +kernel
    have hParent : t.hasDir (Location.ofText "a/./f").parent = true := by decide +kernel
    have hNoFile : t.hasFile (Location.ofText "a/./f").parent = false := by decide +kernel
    rintro _ (hDir | ⟨-, hFile⟩ | ⟨-, hMissing⟩)
    · rw [hNoDir] at hDir
      cases hDir
    · rw [hNoFile] at hFile
      cases hFile
    · exact hMissing (.inr hParent)
  refine ⟨⟨?_, ?_, ?_, ?_⟩, ⟨hFree, ?_⟩, ?_⟩
  · exact (hFaults _ _ _).1.mpr (.isDirectory (by decide +kernel))
  · exact (hFaults _ _ _).2.mpr (.isDirectory (by decide +kernel))
  · exact (hFaults _ _ _).1.mpr (.notDirectory (by decide +kernel) (by decide +kernel))
  · exact (hFaults _ _ _).2.mpr (.notFound (by decide +kernel) (by unfold Has; decide +kernel))
  · obtain ⟨-, t', hAppend, hReplaced⟩ := hDone "a/./f" hFree " two"
    have hOld : (t.read "a/./f").toOption.getD "" ++ " two" = "one two" := by decide +kernel
    refine ⟨t', hAppend, ?_, ?_⟩
    · rw [hReplaced.here "/b/../a/f" (by decide +kernel), hOld]
    · exact (hReplaced.elsewhere "/a/g" (by decide +kernel)).2.2
  · have hRun : (Operation.mkdirAll "/a/f/x/y").perform t =
        .error (.notDirectory ⟨["a", "f"]⟩) t := rfl
    exact ⟨t, hRun, (hPerformed _).2 _ _ hRun⟩

end MemShell.FileTree
