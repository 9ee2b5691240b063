import MemShell.Proofs.AskedDirectories
import MemShell.Proofs.DirectoryListings

/-!
# Normal paths

The two readings of a path text take the same pieces onto a stack and differ in the `..`
that has nothing to cancel: a relative path keeps it, a store drops it. So the stack of a
path is the stack of the place with some `..` below it, and none below it if the path is
read from a root (`Stacked`). Everything here follows from that one step.

A path in which only names follow those `..` is *normal*. Its text is read back as it is, so
simplifying twice is simplifying once, and it leads to the same place as the text that was
simplified.

## Main results

* `Path.normal_ofText`, `Path.ofText_text` — what is read is normal, and normal paths are
  read back.
* `Path.normalize_normalize`, `Location.ofText_normalize` — a simplified text stays as it is
  and leads to the same place.
* `Path.normalize_of_anchored` — the simplest text of an absolute path, from its place.
-/

namespace MemShell

open Location (IsEntryName)

namespace Path

/-! ## The two stacks -/

/-- Below the names there are only `..` that had nothing to cancel, and none after a root. -/
def Stacked (anchor : Anchor) (stack names : List String) : Prop :=
  ∃ k, stack = names ++ List.replicate k ".." ∧ (anchor ≠ .relative → k = 0)

/-- One more piece keeps the two stacks together. -/
theorem stacked_push {anchor : Anchor} {stack names : List String}
    (h : Stacked anchor stack names) (hNames : ∀ name ∈ names, IsEntryName name)
    (piece : String) : Stacked anchor (push anchor stack piece) (Location.push names piece) := by
  obtain ⟨k, rfl, hRoot⟩ := h
  unfold Path.push Location.push
  by_cases hSkip : piece = "" ∨ piece = "."
  · rw [if_pos hSkip, if_pos hSkip]
    exact ⟨k, rfl, hRoot⟩
  rw [if_neg hSkip, if_neg hSkip]
  by_cases hUp : piece = ".."
  · rw [if_pos hUp, if_pos hUp]
    cases names with
    | cons top names =>
        have hTop : top ≠ ".." := (hNames top List.mem_cons_self).ne_dots
        exact ⟨k, by simp [hTop], hRoot⟩
    | nil =>
        cases k with
        | zero =>
            by_cases hRelative : anchor = .relative
            · exact ⟨1, by simp [hRelative], fun hNot => absurd hRelative hNot⟩
            · exact ⟨0, by simp [hRelative], fun _ => rfl⟩
        | succ k =>
            refine ⟨k + 2, by simp [List.replicate_succ, hUp], fun hNot => ?_⟩
            exact absurd (hRoot hNot) (Nat.succ_ne_zero k)
  · rw [if_neg hUp, if_neg hUp]
    exact ⟨k, rfl, hRoot⟩

theorem stacked_foldl {anchor : Anchor} (pieces : List String) :
    ∀ {stack names : List String}, Stacked anchor stack names →
      (∀ name ∈ names, IsEntryName name) → (∀ piece ∈ pieces, '/' ∉ piece.toList) →
      Stacked anchor (pieces.foldl (push anchor) stack) (pieces.foldl Location.push names) := by
  induction pieces with
  | nil => exact fun h _ _ => h
  | cons piece pieces ih =>
      intro stack names h hNames hPieces
      obtain ⟨hFirst, hRest⟩ := List.forall_mem_cons.mp hPieces
      exact ih (stacked_push h hNames piece) (Location.isEntryName_push hNames hFirst) hRest

/-- **The pieces of a path** are the names that lead to its place, after some `..` if it is
relative. -/
theorem exists_parts_eq (s : String) :
    ∃ k, (ofText s).parts = List.replicate k ".." ++ (Location.ofText s).parts ∧
      ((ofText s).anchor ≠ .relative → k = 0) := by
  have hEmpty : Stacked (Anchor.ofChars s.toList) [] [] := ⟨0, rfl, fun _ => rfl⟩
  obtain ⟨k, hStack, hRoot⟩ := stacked_foldl (Text.split '/' s) hEmpty
    (fun _ hMem => absurd hMem List.not_mem_nil) fun _ => Text.not_mem_of_mem_split
  refine ⟨k, ?_, hRoot⟩
  show ((Text.split '/' s).foldl (push _) []).reverse = _
  rw [hStack, List.reverse_append, List.reverse_replicate]
  rfl

/-! ## Normal paths -/

/-- Only names follow the `..` that had nothing to cancel, and there are none after a root. -/
def Normal (p : Path) : Prop :=
  ∃ k names, p.parts = List.replicate k ".." ++ names ∧ (∀ name ∈ names, IsEntryName name) ∧
    (p.anchor ≠ .relative → k = 0)

/-- **What is read is normal.** -/
theorem normal_ofText (s : String) : (ofText s).Normal := by
  obtain ⟨k, hParts, hRoot⟩ := exists_parts_eq s
  exact ⟨k, _, hParts, Location.canonical_ofText s, hRoot⟩

namespace Normal

variable {p : Path}

theorem part (h : p.Normal) {part : String} (hMem : part ∈ p.parts) :
    part ≠ "" ∧ '/' ∉ part.toList := by
  obtain ⟨k, names, hParts, hNames, -⟩ := h
  rw [hParts, List.mem_append] at hMem
  rcases hMem with hUp | hName
  · rw [List.eq_of_mem_replicate hUp]
    exact ⟨by decide, by decide⟩
  · exact ⟨(hNames part hName).ne_empty, (hNames part hName).no_slash⟩

/-- The pieces, joined by slashes, do not start with one. -/
theorem head?_ne (h : p.Normal) : ("/".intercalate p.parts).toList.head? ≠ some '/' := by
  cases hParts : p.parts with
  | nil => decide
  | cons first rest =>
      obtain ⟨hSome, hSlash⟩ := h.part (hParts ▸ List.mem_cons_self)
      obtain ⟨c, cs, hFirst⟩ := List.exists_cons_of_ne_nil
        (fun hNil => hSome (String.toList_eq_nil_iff.mp hNil) : first.toList ≠ [])
      rw [hFirst, List.mem_cons, not_or] at hSlash
      have hHead : ("/".intercalate (first :: rest)).toList.head? = some c := by
        cases rest with
        | nil => simp [hFirst]
        | cons second rest =>
            rw [String.intercalate_cons_cons, String.toList_append, String.toList_append, hFirst]
            rfl
      rw [hHead]
      exact fun hEq => hSlash.1 (Option.some.inj hEq).symm

end Normal

/-! ## Reading the text of a normal path -/

theorem split_slash (t : String) : Text.split '/' ("/" ++ t) = "" :: Text.split '/' t := by
  have hText : ("/" ++ t).toList = [] ++ '/' :: t.toList := by
    rw [String.toList_append]
    rfl
  rw [Text.split, hText, Text.splitAt_append_mark List.not_mem_nil]
  rfl

/-- A slash more at the start leads to the same place. -/
theorem location_slash (t : String) : Location.ofText ("/" ++ t) = .ofText t := by
  unfold Location.ofText
  rw [split_slash]
  rfl

/-- The joined pieces are cut apart again; no piece at all is cut into an empty one. -/
theorem split_parts {p : Path} (h : p.Normal) : Text.split '/' ("/".intercalate p.parts) =
    if p.parts = [] then [""] else p.parts := by
  by_cases hNone : p.parts = []
  · rw [if_pos hNone, hNone]
    decide
  · have hPieces : ∀ piece ∈ p.parts.map String.toList, '/' ∉ piece := by
      intro piece hMem
      obtain ⟨part, hPart, rfl⟩ := List.mem_map.mp hMem
      exact (h.part hPart).2
    have hBack : (p.parts.map String.toList).map String.ofList = p.parts := by
      simp [Function.comp_def]
    rw [if_neg hNone, Text.split, String.toList_intercalate]
    show ((Text.splitAt '/' (['/'].intercalate _)).map String.ofList) = _
    rw [Text.splitAt_intercalate hPieces (fun hNil => hNone (List.map_eq_nil_iff.mp hNil)), hBack]

theorem text_of_relative {p : Path} (h : p.Normal) (hAnchor : p.anchor = .relative) :
    p.text = if p.parts = [] then "." else "/".intercalate p.parts := by
  unfold text
  rw [hAnchor]
  by_cases hNone : p.parts = []
  · rw [if_pos hNone, hNone]
    rfl
  · have hSome : "/".intercalate p.parts ≠ "" := by
      intro hEmpty
      have hSplit := split_parts h
      rw [hEmpty, if_neg hNone] at hSplit
      have hMem : "" ∈ p.parts := hSplit ▸ List.mem_cons_self
      exact (h.part hMem).1 rfl
    simp [hNone, hSome, Anchor.text]

theorem text_of_anchored {p : Path} (hAnchor : p.anchor ≠ .relative) :
    p.text = p.anchor.text ++ "/".intercalate p.parts := by
  have hSome : p.anchor.text ≠ "" := by
    cases hCase : p.anchor with
    | relative => exact absurd hCase hAnchor
    | root => decide
    | doubleRoot => decide
  simp [text, hSome]

/-- **A reading that skips empty pieces and dots** takes the pieces of a normal path from its
text. -/
theorem foldl_split_text {p : Path} (h : p.Normal) {f : List String → String → List String}
    (hEmpty : ∀ stack, f stack "" = stack) (hDot : ∀ stack, f stack "." = stack) :
    (Text.split '/' p.text).foldl f [] = p.parts.foldl f [] := by
  have hParts : (Text.split '/' ("/".intercalate p.parts)).foldl f [] = p.parts.foldl f [] := by
    rw [split_parts h]
    by_cases hNone : p.parts = []
    · simp [hNone, hEmpty]
    · rw [if_neg hNone]
  cases hAnchor : p.anchor with
  | relative =>
      rw [text_of_relative h hAnchor]
      by_cases hNone : p.parts = []
      · have hSplit : Text.split '/' "." = ["."] := by decide
        simp [hNone, hSplit, hDot]
      · rw [if_neg hNone, hParts]
  | root =>
      rw [text_of_anchored (by simp [hAnchor]), hAnchor, Anchor.text, split_slash, List.foldl_cons,
        hEmpty, hParts]
  | doubleRoot =>
      have hSlashes : Anchor.doubleRoot.text = "/" ++ "/" := by decide
      rw [text_of_anchored (by simp [hAnchor]), hAnchor, hSlashes, String.append_assoc, split_slash,
        split_slash, List.foldl_cons, List.foldl_cons, hEmpty, hEmpty, hParts]

theorem ofChars_of_head?_ne {cs : List Char} (h : cs.head? ≠ some '/') :
    Anchor.ofChars cs = .relative ∧ Anchor.ofChars ('/' :: cs) = .root ∧
      Anchor.ofChars ('/' :: '/' :: cs) = .doubleRoot := by
  cases cs with
  | nil => exact ⟨rfl, rfl, rfl⟩
  | cons c cs =>
      have hSlash : c ≠ '/' := fun hEq => h (congrArg some hEq)
      simp [Anchor.ofChars, hSlash]

/-- The slashes that a normal path starts with are read back. -/
theorem ofChars_text {p : Path} (h : p.Normal) : Anchor.ofChars p.text.toList = p.anchor := by
  obtain ⟨hRelative, hRoot, hDouble⟩ := ofChars_of_head?_ne h.head?_ne
  cases hAnchor : p.anchor with
  | relative =>
      rw [text_of_relative h hAnchor]
      by_cases hNone : p.parts = []
      · rw [if_pos hNone]
        decide
      · rw [if_neg hNone]
        exact hRelative
  | root =>
      rw [text_of_anchored (by simp [hAnchor]), hAnchor, String.toList_append]
      exact hRoot
  | doubleRoot =>
      rw [text_of_anchored (by simp [hAnchor]), hAnchor, String.toList_append]
      exact hDouble

theorem foldl_push_replicate (k : Nat) :
    (List.replicate k "..").foldl (push .relative) [] = List.replicate k ".." := by
  induction k with
  | zero => rfl
  | succ k ih =>
      rw [List.replicate_succ', List.foldl_append, ih, ← List.replicate_succ']
      cases k with
      | zero => rfl
      | succ k => simp [push, List.replicate_succ]

theorem push_of_isEntryName {name : String} (h : IsEntryName name) (anchor : Anchor)
    (stack : List String) : push anchor stack name = name :: stack := by
  unfold push
  rw [if_neg (not_or.mpr ⟨h.ne_empty, h.ne_dot⟩), if_neg h.ne_dots]

theorem foldl_push_of_isEntryName {names : List String} (h : ∀ name ∈ names, IsEntryName name)
    (anchor : Anchor) (stack : List String) :
    names.foldl (push anchor) stack = names.reverse ++ stack :=
  foldl_eq_reverse_append (fun _ name hMem => push_of_isEntryName (h name hMem) anchor _) stack

/-- **A normal path is read back** from its text. -/
theorem ofText_text {p : Path} (h : p.Normal) : ofText p.text = p := by
  have hFold : p.parts.foldl (push p.anchor) [] = p.parts.reverse := by
    obtain ⟨k, names, hParts, hNames, hRoot⟩ := h
    have hUps : (List.replicate k "..").foldl (push p.anchor) [] = List.replicate k ".." := by
      by_cases hAnchor : p.anchor = .relative
      · rw [hAnchor, foldl_push_replicate]
      · rw [hRoot hAnchor]
        rfl
    rw [hParts, List.foldl_append, hUps, foldl_push_of_isEntryName hNames,
      List.reverse_append, List.reverse_replicate]
  have hRead : (Text.split '/' p.text).foldl (push p.anchor) [] = p.parts.reverse :=
    (foldl_split_text h (fun stack => by simp [push]) fun stack => by simp [push]).trans hFold
  simp only [ofText, ofChars_text h, hRead, List.reverse_reverse]

theorem normalize_ne_empty (s : String) : normalize s ≠ "" := by
  show (if _ then _ else _) ≠ ""
  split
  · decide
  · rename_i hSome
    exact fun hEmpty => hSome (by rw [hEmpty]; rfl)

/-- **Simplifying twice** is simplifying once. -/
theorem normalize_normalize (s : String) : normalize (normalize s) = normalize s :=
  congrArg text (ofText_text (normal_ofText s))

/-- **The simplest text of an absolute path** is told by its slashes and its place. -/
theorem normalize_of_anchored {s : String} (h : Anchor.ofChars s.toList ≠ .relative) :
    normalize s = (Anchor.ofChars s.toList).text ++ "/".intercalate (Location.ofText s).parts := by
  obtain ⟨k, hParts, hRoot⟩ := exists_parts_eq s
  rw [hRoot h, List.replicate_zero, List.nil_append] at hParts
  rw [← hParts]
  exact text_of_anchored h

end Path

/-- **A simplified text leads to the same place.** -/
theorem Location.ofText_normalize (s : String) : ofText (Path.normalize s) = ofText s := by
  have hUps : ∀ k, (List.replicate k "..").foldl push [] = [] := by
    intro k
    induction k with
    | zero => rfl
    | succ k ih => exact ih
  obtain ⟨k, hParts, -⟩ := Path.exists_parts_eq s
  have hFold : (Path.ofText s).parts.foldl push [] = (ofText s).parts.reverse := by
    rw [hParts, List.foldl_append, hUps, foldl_push_of_isEntryName (canonical_ofText s),
      List.append_nil]
  unfold Path.normalize
  conv_lhs => unfold ofText
  rw [Path.foldl_split_text (Path.normal_ofText s) (fun stack => by simp [push]) fun stack => by
    simp [push], hFold, List.reverse_reverse]

end MemShell
