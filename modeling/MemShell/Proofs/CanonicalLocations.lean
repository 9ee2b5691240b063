import Mathlib.Data.List.Basic
import MemShell.Path

/-!
# The names that lead to an entry

A path text is cut at its slashes, and the pieces are taken onto a stack: empty
pieces and dots change nothing, two dots take the last name off. Whatever the text
was, what remains are *names*: texts that are not empty, have no slash in them and
are none of the two dotted ones (`IsEntryName`). An entry whose names are all of that
kind is *canonical*, so every text leads to a canonical entry (`canonical_ofText`).

A canonical entry is known by its absolute path. Cutting that path gives the empty
piece before the first slash and then the names, none of which the stack drops, so
reading the path leads back to the entry (`ofText_text`). The store may therefore be
described by entries or by paths, whichever is handier.

## Main results

* `canonical_ofText` — every text leads to a canonical entry.
* `ofText_text` — the path of a canonical entry leads back to it.
-/

namespace MemShell

/-! ## Cutting what was joined -/

namespace Text

theorem splitAt_of_not_mem {mark : Char} {cs : List Char} (h : mark ∉ cs) :
    splitAt mark cs = [cs] := by
  induction cs with
  | nil => rfl
  | cons c cs ih =>
      have hHead : c ≠ mark := fun hEq => h (hEq ▸ List.mem_cons_self)
      have hTail : mark ∉ cs := fun hMem => h (List.mem_cons_of_mem c hMem)
      rw [splitAt, if_neg hHead, ih hTail]

/-- What is before a mark and what is behind it are cut apart. -/
theorem splitAt_append_cons (mark : Char) (cs ds : List Char) :
    splitAt mark (cs ++ mark :: ds) = splitAt mark cs ++ splitAt mark ds := by
  induction cs with
  | nil => simp [splitAt]
  | cons c cs ih =>
      by_cases hMark : c = mark
      · simp [splitAt, hMark, ih]
      · obtain ⟨first, rest, hSplit⟩ := List.exists_cons_of_ne_nil (splitAt_ne_nil mark cs)
        rw [hSplit] at ih
        simp [splitAt, hMark, ih, hSplit]

theorem splitAt_append_mark {mark : Char} {piece : List Char} (h : mark ∉ piece)
    (cs : List Char) : splitAt mark (piece ++ mark :: cs) = piece :: splitAt mark cs := by
  rw [splitAt_append_cons, splitAt_of_not_mem h, List.singleton_append]

/-- Pieces without the mark, joined by it and cut at it again. -/
theorem splitAt_intercalate {mark : Char} {pieces : List (List Char)}
    (h : ∀ piece ∈ pieces, mark ∉ piece) (hSome : pieces ≠ []) :
    splitAt mark ([mark].intercalate pieces) = pieces := by
  induction pieces with
  | nil => exact absurd rfl hSome
  | cons piece pieces ih =>
      have hPiece : mark ∉ piece := h piece List.mem_cons_self
      cases pieces with
      | nil =>
          rw [List.intercalate_singleton]
          exact splitAt_of_not_mem hPiece
      | cons next rest =>
          have hRest : ∀ p ∈ next :: rest, mark ∉ p :=
            fun p hp => h p (List.mem_cons_of_mem piece hp)
          rw [List.intercalate_cons_cons, List.append_assoc, List.singleton_append,
            splitAt_append_mark hPiece, ih hRest (List.cons_ne_nil next rest)]

/-- The pieces between slashes have none. -/
theorem not_mem_of_mem_split {mark : Char} {s piece : String} (h : piece ∈ split mark s) :
    mark ∉ piece.toList := by
  obtain ⟨cs, hCs, rfl⟩ := List.mem_map.mp h
  rw [String.toList_ofList]
  exact not_mem_of_mem_splitAt hCs

end Text

/-- Names that are all taken onto a stack lie there in reverse. -/
theorem foldl_eq_reverse_append {push : List String → String → List String} {names : List String}
    (h : ∀ stack, ∀ name ∈ names, push stack name = name :: stack) (stack : List String) :
    names.foldl push stack = names.reverse ++ stack := by
  rw [List.foldl_ext push (fun stack name => name :: stack) stack h,
    List.foldl_flip_cons_eq_append']

namespace Location

/-! ## Names -/

/-- A text that can lead from a directory to one of its entries. -/
structure IsEntryName (name : String) : Prop where
  ne_empty : name ≠ ""
  no_slash : '/' ∉ name.toList
  ne_dot : name ≠ "."
  ne_dots : name ≠ ".."

/-- Only names lead to the entry. -/
def Canonical (l : Location) : Prop :=
  ∀ name ∈ l.parts, IsEntryName name

theorem canonical_root : root.Canonical :=
  fun _ hMem => absurd hMem List.not_mem_nil

theorem Canonical.parent {l : Location} (h : l.Canonical) : l.parent.Canonical :=
  fun name hMem => h name (List.dropLast_subset _ hMem)

/-! ## Every text leads to a canonical entry -/

theorem push_of_isEntryName {name : String} (h : IsEntryName name) (stack : List String) :
    push stack name = name :: stack := by
  unfold push
  rw [if_neg (not_or.mpr ⟨h.ne_empty, h.ne_dot⟩), if_neg h.ne_dots]

/-- A piece without a slash keeps a stack of names a stack of names. -/
theorem isEntryName_push {stack : List String} {piece : String}
    (hStack : ∀ name ∈ stack, IsEntryName name) (hPiece : '/' ∉ piece.toList) :
    ∀ name ∈ push stack piece, IsEntryName name := by
  intro name hMem
  unfold push at hMem
  by_cases hSkip : piece = "" ∨ piece = "."
  · rw [if_pos hSkip] at hMem
    exact hStack name hMem
  · rw [if_neg hSkip] at hMem
    by_cases hUp : piece = ".."
    · rw [if_pos hUp] at hMem
      exact hStack name (List.mem_of_mem_tail hMem)
    · rw [if_neg hUp] at hMem
      rcases List.mem_cons.mp hMem with hNew | hOld
      · rw [hNew]
        exact ⟨fun h => hSkip (.inl h), hPiece, fun h => hSkip (.inr h), hUp⟩
      · exact hStack name hOld

theorem isEntryName_foldl_push (pieces : List String) :
    ∀ stack : List String, (∀ name ∈ stack, IsEntryName name) →
      (∀ piece ∈ pieces, '/' ∉ piece.toList) →
      ∀ name ∈ pieces.foldl push stack, IsEntryName name := by
  induction pieces with
  | nil => exact fun stack hStack _ => hStack
  | cons piece pieces ih =>
      intro stack hStack hPieces
      have hFirst : '/' ∉ piece.toList := hPieces piece List.mem_cons_self
      have hRest : ∀ p ∈ pieces, '/' ∉ p.toList := fun p hp =>
        hPieces p (List.mem_cons_of_mem piece hp)
      exact ih (push stack piece) (isEntryName_push hStack hFirst) hRest

/-- **Every text leads to a canonical entry**, whatever slashes and dots it has. -/
theorem canonical_ofText (s : String) : (ofText s).Canonical := by
  have hPieces : ∀ piece ∈ Text.split '/' s, '/' ∉ piece.toList :=
    fun _ hMem => Text.not_mem_of_mem_split hMem
  have hNone : ∀ name ∈ ([] : List String), IsEntryName name :=
    fun _ hMem => absurd hMem List.not_mem_nil
  intro name hMem
  exact isEntryName_foldl_push _ [] hNone hPieces name (List.mem_reverse.mp hMem)

/-! ## The path of a canonical entry -/

theorem foldl_push_of_isEntryName {names : List String} (h : ∀ name ∈ names, IsEntryName name)
    (stack : List String) : names.foldl push stack = names.reverse ++ stack :=
  foldl_eq_reverse_append (fun _ name hMem => push_of_isEntryName (h name hMem) _) stack

/-- The path of an entry, cut at its slashes. -/
theorem split_text {l : Location} (h : l.Canonical) :
    Text.split '/' l.text = if l.parts = [] then ["", ""] else "" :: l.parts := by
  by_cases hRoot : l.parts = []
  · rw [if_pos hRoot, text, hRoot]
    decide
  · have hPieces : ∀ piece ∈ l.parts.map String.toList, '/' ∉ piece := by
      intro piece hMem
      obtain ⟨name, hName, rfl⟩ := List.mem_map.mp hMem
      exact (h name hName).no_slash
    have hText : l.text.toList = [] ++ '/' :: ['/'].intercalate (l.parts.map String.toList) := by
      rw [text, String.toList_append, String.toList_intercalate]
      rfl
    have hSome : l.parts.map String.toList ≠ [] := fun hNil => hRoot (List.map_eq_nil_iff.mp hNil)
    have hBack : (l.parts.map String.toList).map String.ofList = l.parts := by
      simp [Function.comp_def]
    rw [if_neg hRoot, Text.split, hText, Text.splitAt_append_mark List.not_mem_nil,
      Text.splitAt_intercalate hPieces hSome, List.map_cons, hBack, String.ofList_nil]

/-- **The path of a canonical entry** leads back to it. -/
theorem ofText_text {l : Location} (h : l.Canonical) : ofText l.text = l := by
  have hFold : (Text.split '/' l.text).foldl push [] = l.parts.reverse := by
    rw [split_text h]
    by_cases hRoot : l.parts = []
    · rw [if_pos hRoot, hRoot]
      rfl
    · rw [if_neg hRoot]
      -- the empty piece before the first slash changes nothing
      show l.parts.foldl push [] = l.parts.reverse
      rw [foldl_push_of_isEntryName h, List.append_nil]
  rw [ofText, hFold, List.reverse_reverse]

end Location

end MemShell
