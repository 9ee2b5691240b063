import MemShell.Proofs.TokenRoles
import MemShell.Proofs.WrittenLines

/-!
# Reading a line by cutting it

The reader of trees takes one token after the other and keeps what it has read in
its state. The same trees can be described without any state, by cutting: a line
at its semicolons, what stands between them at `&&` and `||`, what stands between
those at `|`, and what is left is a command. This module shows that the reader
gives the trees of that description whenever it gives trees at all.

The reader is followed level by level, from the inside out. Each level has one
lemma that says what the reader holds after the tokens of that level
(`feed_stage`, `feed_pipeline`, `feed_chain`), and each is an induction over the
cuts (`cutInduction`): up to the first mark the level below applies, the mark moves
the reader on, and the rest is shorter. A mark can only be read where a command
is complete, which is why no level needs a hypothesis about the form of its tokens.

## Main results

* `Cut.canonical_trees` — pipelines have two stages or more, chains lean left.
* `Cut.run_eq_trees` — the reader gives the trees of the cuts.
* `Cut.trees_of_build` — a line that has trees has those of its cuts, and they hold
  what its tokens say.
-/

namespace MemShell

/-! ## The trees of the cuts -/

namespace Cut

/-- The argument that a token is after another: any text, unless it is a file name. -/
def arg? (before t : Token) : Option String :=
  if before.kind.redirectKind? = none ∧ t.kind.isText then some t.value else none

/-- The redirection that an operator and the next token are. -/
def redirect? (before t : Token) : Option Redirect :=
  before.kind.redirectKind?.map fun kind => ⟨kind, t.value⟩

/-- A command: its name is the first token, then come arguments and redirections. -/
def simple (stage : List Token) : Simple :=
  ⟨(stage.head?.map Token.value).getD "",
    (stage.zip stage.tail).filterMap fun p => arg? p.1 p.2,
    (stage.zip stage.tail).filterMap fun p => redirect? p.1 p.2⟩

def isPipe (t : Token) : Bool :=
  t.kind = .pipe

def isConnective (t : Token) : Bool :=
  t.kind.connective?.isSome

def isSemicolon (t : Token) : Bool :=
  t.kind = .semicolon

def stages (piece : List Token) : List Simple :=
  (piece.splitOnP isPipe).map simple

/-- What stands between connectives; one stage is the command itself. -/
def pipeline (piece : List Token) : Tree :=
  Tree.ofStages (stages piece)

def connectives (segment : List Token) : List Connective :=
  segment.filterMap fun t => t.kind.connective?

/-- Joins operands to the left of a chain, in order. -/
def join (left : Tree) (cs : List Connective) (pieces : List (List Token)) : Tree :=
  (cs.zip pieces).foldl (fun left p => .logical left p.1 (pipeline p.2)) left

/-- What stands between semicolons. -/
def chain (segment : List Token) : Tree :=
  join (pipeline ((segment.splitOnP isConnective).headD [])) (connectives segment)
    (segment.splitOnP isConnective).tail

def dropEmptyLast (parts : List (List Token)) : List (List Token) :=
  if parts.getLast? = some [] then parts.dropLast else parts

/-- A line cut at its semicolons; nothing need follow the last one. -/
def segments (ts : List Token) : List (List Token) :=
  dropEmptyLast (ts.splitOnP isSemicolon)

def trees (ts : List Token) : List Tree :=
  (segments ts).map chain

/-! ## Cutting -/

/-- Lists by their cuts: a list without a mark, or such a list, a mark and the rest. -/
theorem cutInduction {α : Type} {p : α → Bool} {motive : List α → Prop}
    (whole : ∀ xs, (∀ x ∈ xs, p x = false) → motive xs)
    (cut : ∀ xs mark ys, (∀ x ∈ xs, p x = false) → p mark = true → motive ys →
      motive (xs ++ mark :: ys))
    (xs : List α) : motive xs := by
  have hGeneral : ∀ front : List α, (∀ x ∈ front, p x = false) → motive (front ++ xs) := by
    induction xs with
    | nil =>
        intro front hFront
        rw [List.append_nil]
        exact whole front hFront
    | cons x xs ih =>
        intro front hFront
        cases hx : p x with
        | true => exact cut front x xs hFront hx (ih [] (by simp))
        | false =>
            have hLonger : ∀ y ∈ front ++ [x], p y = false := by
              intro y hy
              rcases List.mem_append.mp hy with hy | hy
              · exact hFront y hy
              · rw [List.mem_singleton.mp hy]
                exact hx
            simpa using ih (front ++ [x]) hLonger
  exact hGeneral [] (by simp)

theorem splitOnP_cut {p : Token → Bool} {xs ys : List Token} {mark : Token}
    (hXs : ∀ x ∈ xs, p x = false) (hMark : p mark = true) :
    (xs ++ mark :: ys).splitOnP p = xs :: ys.splitOnP p := by
  rw [List.splitOnP_append_cons xs ys hMark, List.splitOnP_eq_singleton hXs]
  rfl

private theorem stages_cut {xs ys : List Token} {mark : Token}
    (hXs : ∀ x ∈ xs, isPipe x = false) (hMark : isPipe mark = true) :
    stages (xs ++ mark :: ys) = simple xs :: stages ys := by
  rw [stages, splitOnP_cut hXs hMark]
  rfl

private theorem connectives_eq_nil {xs : List Token} (h : ∀ x ∈ xs, isConnective x = false) :
    connectives xs = [] := by
  apply List.filterMap_eq_nil_iff.mpr
  intro x hx
  simpa [isConnective] using h x hx

private theorem segments_cut {xs ys : List Token} {mark : Token}
    (hXs : ∀ x ∈ xs, isSemicolon x = false) (hMark : isSemicolon mark = true) :
    segments (xs ++ mark :: ys) = xs :: segments ys := by
  obtain ⟨part, parts, hParts⟩ := List.exists_cons_of_ne_nil (List.splitOnP_ne_nil isSemicolon ys)
  rw [segments, segments, splitOnP_cut hXs hMark, hParts, dropEmptyLast, dropEmptyLast,
    List.getLast?_cons_cons]
  split <;> rfl

private theorem segments_whole {xs : List Token} (hXs : ∀ x ∈ xs, isSemicolon x = false)
    (hNil : xs ≠ []) : segments xs = [xs] := by
  rw [segments, List.splitOnP_eq_singleton hXs]
  simp [dropEmptyLast, hNil]

/-! ## The shape of the trees of the cuts -/

open Written (Canonical isLogical)

private theorem canonical_pipeline (piece : List Token) :
    Canonical (pipeline piece) ∧ isLogical (pipeline piece) = false := by
  have hStages : stages piece ≠ [] := by
    simp [stages, List.splitOnP_ne_nil]
  unfold pipeline
  match stages piece, hStages with
  | [_], _ => exact ⟨trivial, rfl⟩
  | _ :: _ :: _, _ => exact ⟨by simp [Tree.ofStages, Canonical], rfl⟩

private theorem canonical_join {left : Tree} (hLeft : Canonical left) (cs : List Connective) :
    ∀ pieces, Canonical (join left cs pieces) := by
  induction cs generalizing left with
  | nil => intro pieces; exact hLeft
  | cons c cs ih =>
      intro pieces
      cases pieces with
      | nil => exact hLeft
      | cons piece pieces =>
          obtain ⟨hPiece, hOperand⟩ := canonical_pipeline piece
          have hJoined (c : Connective) : Canonical (.logical left c (pipeline piece)) :=
            ⟨hLeft, hPiece, hOperand⟩
          exact ih (hJoined c) pieces

/-- **The trees of the cuts** are of the form that lines ask for. -/
theorem canonical_trees (ts : List Token) : ∀ t ∈ trees ts, Canonical t := by
  intro t ht
  obtain ⟨segment, -, rfl⟩ := List.mem_map.mp ht
  exact canonical_join (canonical_pipeline _).1 _ _

end Cut

/-! ## The reader, level by level -/

namespace Tree.Parse

open Written

/-- The reader after a command. -/
def Mode.after (o : Outer) (c : Simple) : Mode :=
  rest o c.command c.args.reverse c.redirects.reverse

/-- The reader inside a command, after the token `before`. -/
def Mode.inside (o : Outer) (command : String) (args : List String) (redirects : List Redirect)
    (before : Token) : Mode :=
  match before.kind.redirectKind? with
  | none => rest o command args redirects
  | some kind => file o command args redirects kind

/-- Inside a command, a token adds an argument or a redirection or is an operator. -/
private theorem step_inside {o : Outer} {command : String} {args : List String}
    {redirects : List Redirect} {before t : Token} {out : List Tree} {m : Mode}
    (hInner : t.kind.isBoundary = false)
    (hStep : reader.step (.inside o command args redirects before) t = .ok (out, m)) :
    out = [] ∧ m = .inside o command ((Cut.arg? before t).toList ++ args)
      ((Cut.redirect? before t).toList ++ redirects) t := by
  cases hBefore : before.kind.redirectKind? with
  | none =>
      rw [Mode.inside, hBefore] at hStep
      cases stepsTo_of_step hStep with
      | arg _ _ _ _ hText =>
          have hNext := TokenKind.redirectKind?_of_isText hText
          simp [Mode.inside, Cut.arg?, Cut.redirect?, hBefore, hText, hNext]
      | redirection _ _ _ _ hKind =>
          have hText := TokenKind.isText_of_redirectKind? hKind
          simp [Mode.inside, Cut.arg?, Cut.redirect?, hBefore, hText, hKind]
      | pipe _ _ _ _ hKind => simp [hKind, TokenKind.isBoundary] at hInner
      | connective _ _ _ _ hKind => simp [TokenKind.isBoundary_of_connective? hKind] at hInner
      | semicolon _ _ _ _ hKind => simp [hKind, TokenKind.isBoundary] at hInner
  | some kind =>
      rw [Mode.inside, hBefore] at hStep
      cases stepsTo_of_step hStep with
      | file _ _ _ _ _ hText =>
          have hNext := TokenKind.redirectKind?_of_isText hText
          simp [Mode.inside, Cut.arg?, Cut.redirect?, hBefore, hNext]

private theorem feed_inside {o : Outer} {command : String} {ts : List Token}
    (hInner : ∀ t ∈ ts, t.kind.isBoundary = false) :
    ∀ {before : Token} {args : List String} {redirects : List Redirect} {out : List Tree}
      {m : Mode}, reader.feed (.inside o command args redirects before) ts = .ok (out, m) →
      out = [] ∧ ∃ last, m = .inside o command
        ((((before :: ts).zip ts).filterMap fun p => Cut.arg? p.1 p.2).reverse ++ args)
        ((((before :: ts).zip ts).filterMap fun p => Cut.redirect? p.1 p.2).reverse ++ redirects)
        last := by
  induction ts with
  | nil =>
      intro before args redirects out m hFeed
      cases hFeed
      exact ⟨rfl, before, rfl⟩
  | cons t ts ih =>
      intro before args redirects out m hFeed
      obtain ⟨first, m', rest, hStep, hRest, rfl⟩ := Transducer.feed_cons_eq_ok_iff.mp hFeed
      obtain ⟨rfl, rfl⟩ := step_inside (hInner t (by simp)) hStep
      obtain ⟨rfl, last, rfl⟩ := ih (fun u hu => hInner u (by simp [hu])) hRest
      refine ⟨rfl, last, ?_⟩
      congr 1
      · cases h : Cut.arg? before t <;> simp [h]
      · cases h : Cut.redirect? before t <;> simp [h]

/-- **A command**: after tokens without a boundary, the reader holds the command that they
are cut as. -/
theorem feed_stage {o : Outer} {stage : List Token} {out : List Tree} {m : Mode}
    (hStage : ∀ t ∈ stage, t.kind.isBoundary = false)
    (hFeed : reader.feed (.name o) stage = .ok (out, m)) (hRest : m.isRest = true) :
    out = [] ∧ m = .after o (Cut.simple stage) := by
  cases stage with
  | nil =>
      cases hFeed
      cases hRest
  | cons t ts =>
      obtain ⟨first, m', rest, hStep, hFeed, rfl⟩ := Transducer.feed_cons_eq_ok_iff.mp hFeed
      have hText := isText_of_step hStep rfl
      rw [step_name_text hText] at hStep
      cases hStep
      have hInside : Mode.rest o t.value [] [] = .inside o t.value [] [] t := by
        rw [Mode.inside, TokenKind.redirectKind?_of_isText hText]
      rw [hInside] at hFeed
      obtain ⟨rfl, last, rfl⟩ := feed_inside (fun u hu => hStage u (by simp [hu])) hFeed
      refine ⟨rfl, ?_⟩
      cases hLast : last.kind.redirectKind? with
      | none => simp [Mode.inside, hLast, Mode.after, Cut.simple]
      | some kind => simp [Mode.inside, hLast, Mode.isRest] at hRest

/-- Up to a boundary, the boundary, and from there: the boundary finds a complete command. -/
private theorem feed_cut {m m' : Mode} {xs ys : List Token} {mark : Token} {out : List Tree}
    (hMark : mark.kind.isBoundary = true)
    (hFeed : reader.feed m (xs ++ mark :: ys) = .ok (out, m')) :
    ∃ first m₁ second m₂ rest, reader.feed m xs = .ok (first, m₁) ∧ m₁.isRest = true ∧
      reader.step m₁ mark = .ok (second, m₂) ∧ reader.feed m₂ ys = .ok (rest, m') ∧
      out = first ++ (second ++ rest) := by
  obtain ⟨first, m₁, later, hFirst, hLater, rfl⟩ := Transducer.feed_append_eq_ok_iff.mp hFeed
  obtain ⟨second, m₂, rest, hStep, hRest, rfl⟩ := Transducer.feed_cons_eq_ok_iff.mp hLater
  exact ⟨first, m₁, second, m₂, rest, hFirst, isRest_of_step_boundary hMark hStep, hStep, hRest,
    rfl⟩

/-- Tokens in which only a mark could be a boundary, and that have no mark. -/
private theorem isBoundary_eq_false {p : Token → Bool} {ts : List Token}
    (hOnly : ∀ t ∈ ts, t.kind.isBoundary = true → p t = true) (hNone : ∀ t ∈ ts, p t = false) :
    ∀ t ∈ ts, t.kind.isBoundary = false := by
  intro t ht
  by_contra hBoundary
  have hMark := hOnly t ht (by simpa using hBoundary)
  rw [hNone t ht] at hMark
  cases hMark

/-- **A pipeline**: the stages read before it and its own are held in order. -/
theorem feed_pipeline {left : Option (Tree × Connective)} (piece : List Token) :
    (∀ t ∈ piece, t.kind.isBoundary = true → Cut.isPipe t = true) →
    ∀ {before : List Simple} {out : List Tree} {m : Mode},
      reader.feed (.name ⟨left, before⟩) piece = .ok (out, m) → m.isRest = true →
      out = [] ∧ ∃ earlier c, m = .after ⟨left, earlier⟩ c ∧
        (c :: earlier).reverse = before.reverse ++ Cut.stages piece := by
  induction piece using Cut.cutInduction (p := Cut.isPipe) with
  | whole piece hWhole =>
      intro hPiece before out m hFeed hRest
      obtain ⟨rfl, rfl⟩ := feed_stage (isBoundary_eq_false hPiece hWhole) hFeed hRest
      refine ⟨rfl, before, Cut.simple piece, rfl, ?_⟩
      rw [Cut.stages, List.splitOnP_eq_singleton hWhole]
      simp
  | cut stage mark rest hWhole hMark ih =>
      intro hPiece before out m hFeed hRest
      have hPipe : mark.kind = .pipe := by simpa [Cut.isPipe] using hMark
      obtain ⟨_, m₁, _, m₂, _, hFirst, hComplete, hStep, hLater, rfl⟩ :=
        feed_cut (by rw [hPipe]; rfl) hFeed
      have hStage := isBoundary_eq_false (fun t ht => hPiece t (by simp [ht])) hWhole
      obtain ⟨rfl, rfl⟩ := feed_stage hStage hFirst hComplete
      rw [Mode.after, step_rest_pipe hPipe, ofRead_reverse] at hStep
      cases hStep
      obtain ⟨rfl, earlier, c, rfl, hStages⟩ :=
        ih (fun t ht => hPiece t (by simp [ht])) hLater hRest
      refine ⟨rfl, earlier, c, rfl, ?_⟩
      rw [hStages, Cut.stages_cut hWhole hMark]
      simp

/-- The same, with the tree that the pipeline completes. -/
private theorem completes_pipeline {left : Option (Tree × Connective)} {piece : List Token}
    {out : List Tree} {m : Mode}
    (hPiece : ∀ t ∈ piece, t.kind.isBoundary = true → Cut.isPipe t = true)
    (hFeed : reader.feed (.name ⟨left, []⟩) piece = .ok (out, m)) (hRest : m.isRest = true) :
    out = [] ∧ Completes m (attach left (Cut.pipeline piece)) := by
  obtain ⟨rfl, earlier, c, rfl, hStages⟩ := feed_pipeline piece hPiece hFeed hRest
  refine ⟨rfl, ⟨left, earlier⟩, c.command, c.args.reverse, c.redirects.reverse, rfl, ?_⟩
  rw [List.reverse_nil, List.nil_append] at hStages
  rw [ofRead_reverse, Cut.pipeline, ← hStages]
  cases left <;> rfl

/-- **A chain**: the reader has joined the operands to what stood to the left of them. -/
theorem feed_chain (segment : List Token) :
    (∀ t ∈ segment, Cut.isSemicolon t = false) →
    ∀ {left : Option (Tree × Connective)} {out : List Tree} {m : Mode},
      reader.feed (.name ⟨left, []⟩) segment = .ok (out, m) → m.isRest = true →
      out = [] ∧ Completes m
        (Cut.join (attach left (Cut.pipeline ((segment.splitOnP Cut.isConnective).headD [])))
          (Cut.connectives segment) (segment.splitOnP Cut.isConnective).tail) := by
  have hOnly : ∀ t : Token, Cut.isSemicolon t = false → Cut.isConnective t = false →
      t.kind.isBoundary = true → Cut.isPipe t = true := by
    intro t hSemicolon hConnective hBoundary
    rcases TokenKind.boundary_cases hBoundary with h | ⟨c, h⟩ | h
    · simp [Cut.isPipe, h]
    · simp [Cut.isConnective, h] at hConnective
    · simp [Cut.isSemicolon, h] at hSemicolon
  induction segment using Cut.cutInduction (p := Cut.isConnective) with
  | whole segment hWhole =>
      intro hSegment left out m hFeed hRest
      have hPiece : ∀ t ∈ segment, t.kind.isBoundary = true → Cut.isPipe t = true :=
        fun t ht => hOnly t (hSegment t ht) (hWhole t ht)
      rw [List.splitOnP_eq_singleton hWhole, Cut.connectives_eq_nil hWhole]
      exact completes_pipeline hPiece hFeed hRest
  | cut piece mark rest hWhole hMark ih =>
      intro hSegment left out m hFeed hRest
      obtain ⟨c, hKind⟩ : ∃ c, mark.kind.connective? = some c := Option.isSome_iff_exists.mp hMark
      obtain ⟨_, m₁, _, m₂, _, hFirst, hComplete, hStep, hLater, rfl⟩ :=
        feed_cut (TokenKind.isBoundary_of_connective? hKind) hFeed
      have hPiece : ∀ t ∈ piece, t.kind.isBoundary = true → Cut.isPipe t = true :=
        fun t ht => hOnly t (hSegment t (by simp [ht])) (hWhole t ht)
      obtain ⟨rfl, o, command, args, redirects, rfl, hClose⟩ :=
        completes_pipeline hPiece hFirst hComplete
      rw [step_rest_connective hKind, hClose] at hStep
      cases hStep
      obtain ⟨rfl, hDone⟩ := ih (fun t ht => hSegment t (by simp [ht])) hLater hRest
      refine ⟨rfl, ?_⟩
      obtain ⟨first, pieces, hPieces⟩ :=
        List.exists_cons_of_ne_nil (List.splitOnP_ne_nil Cut.isConnective rest)
      have hConnectives : Cut.connectives (piece ++ mark :: rest) = c :: Cut.connectives rest := by
        have hNil := Cut.connectives_eq_nil hWhole
        simp only [Cut.connectives] at hNil ⊢
        rw [List.filterMap_append, hNil, List.filterMap_cons, hKind]
        rfl
      rw [Cut.splitOnP_cut hWhole hMark, hConnectives, hPieces]
      rw [hPieces] at hDone
      exact hDone

end Tree.Parse

namespace Cut

open Tree.Parse Written

/-- A segment that ends at a semicolon or with the line, read from where a tree may start. -/
private theorem completes_chain {segment : List Token} {out : List Tree} {m : Mode}
    (hSegment : ∀ t ∈ segment, isSemicolon t = false)
    (hFeed : reader.feed .fresh segment = .ok (out, m)) (hRest : m.isRest = true) :
    segment ≠ [] ∧ out = [] ∧ Completes m (chain segment) := by
  have hNil : segment ≠ [] := by
    rintro rfl
    cases hFeed
    cases hRest
  rw [feed_fresh hNil] at hFeed
  obtain ⟨rfl, hDone⟩ := feed_chain segment hSegment hFeed hRest
  exact ⟨hNil, rfl, hDone⟩

/-- **A line**: the trees that the reader gives are those of the cuts. -/
theorem run_eq_trees (ts : List Token) :
    ∀ {found : List Tree}, reader.run .fresh ts = .ok found → found = trees ts := by
  induction ts using cutInduction (p := isSemicolon) with
  | whole segment hWhole =>
      intro found hRun
      obtain ⟨before, m, rest, hFeed, hFinish, rfl⟩ := Transducer.run_eq_ok_iff.mp hRun
      rcases List.eq_nil_or_concat' segment with rfl | ⟨front, t, rfl⟩
      · cases hFeed
        cases hFinish
        rfl
      · have hFresh : m ≠ .fresh := by
          rw [Ne, feed_eq_fresh_iff hFeed]
          simpa [isSemicolon] using hWhole t (by simp)
        obtain ⟨hNil, rfl, o, command, args, redirects, rfl, hClose⟩ :=
          completes_chain hWhole hFeed (isRest_of_finish hFinish hFresh)
        cases hFinish
        rw [trees, segments_whole hWhole hNil, hClose]
        rfl
  | cut segment mark rest hWhole hMark ih =>
      intro found hRun
      have hKind : mark.kind = .semicolon := by simpa [isSemicolon] using hMark
      obtain ⟨out, m, last, hFeed, hFinish, rfl⟩ := Transducer.run_eq_ok_iff.mp hRun
      obtain ⟨_, m₁, _, m₂, after, hFirst, hComplete, hStep, hLater, rfl⟩ :=
        feed_cut (by rw [hKind]; rfl) hFeed
      obtain ⟨-, rfl, o, command, args, redirects, rfl, hClose⟩ :=
        completes_chain hWhole hFirst hComplete
      rw [step_rest_semicolon hKind, hClose] at hStep
      cases hStep
      have hRest : after ++ last = trees rest :=
        ih (Transducer.run_eq_ok_iff.mpr ⟨after, m, last, hLater, hFinish, rfl⟩)
      rw [trees, segments_cut hWhole hMark, List.map_cons, ← trees, ← hRest]
      rfl

/--
**Building trees is cutting.** If tokens have trees, these are the trees of their cuts.
Each pipeline in them has two stages or more and no chain is the right operand of
another, and role by role they hold exactly what the tokens say.
-/
theorem trees_of_build {ts : List Token} {found : List Tree} (h : Tree.build ts = .ok found) :
    found = trees ts ∧ (∀ t ∈ found, Canonical t) ∧
      SameByRole (found.flatMap Tree.items) (Token.itemsAfter none ts) := by
  have hTrees : found = trees ts := run_eq_trees ts h
  have hFollows : Follows .fresh none := fun t ht => by cases ht
  refine ⟨hTrees, ?_, sameByRole_run ts hFollows h⟩
  rw [hTrees]
  exact canonical_trees ts

/-- The tokens of `a > f x | 'b' && c || d >> "g" y > h ; e ;`. -/
def mixedTokens : List Token :=
  [⟨.word, "a"⟩, ⟨.redirect, ">"⟩, ⟨.word, "f"⟩, ⟨.word, "x"⟩, ⟨.pipe, "|"⟩,
    ⟨.singleQuoted, "b"⟩, ⟨.and, "&&"⟩, ⟨.word, "c"⟩, ⟨.or, "||"⟩, ⟨.word, "d"⟩,
    ⟨.append, ">>"⟩, ⟨.doubleQuoted, "g"⟩, ⟨.word, "y"⟩, ⟨.redirect, ">"⟩, ⟨.word, "h"⟩,
    ⟨.semicolon, ";"⟩, ⟨.word, "e"⟩, ⟨.semicolon, ";"⟩]

def mixedTrees : List Tree :=
  [.logical
      (.logical (.pipeline [⟨"a", ["x"], [⟨.write, "f"⟩]⟩, ⟨"b", [], []⟩]) .and
        (.simple ⟨"c", [], []⟩))
      .or (.simple ⟨"d", ["y"], [⟨.append, "g"⟩, ⟨.write, "h"⟩]⟩),
    .simple ⟨"e", [], []⟩]

theorem trees_of_build_mixed :
    Tree.build mixedTokens = .ok mixedTrees ∧ mixedTrees = trees mixedTokens ∧
      (∀ t ∈ mixedTrees, Canonical t) ∧
      SameByRole (mixedTrees.flatMap Tree.items) (Token.itemsAfter none mixedTokens) :=
  ⟨rfl, trees_of_build rfl⟩

end Cut

end MemShell
