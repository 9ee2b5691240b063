import MemShell.LineError
import MemShell.Transducer
import MemShell.Tree

/-!
# Building command trees from tokens

The tokens are read from left to right by a transducer. Its state is the tree
under construction, cut at the point that has been reached:

* `Outer` is what stands to the left of the current command in its tree: the
  operand and connective that wait for their right side, and the finished
  stages of the current pipeline;
* a `Mode` adds what must come next.

Three things can be required: a command name (at the start, after `|`, `&&` and
`||`), a file name (after a redirection), or nothing in particular. A semicolon
gives the tree out and starts afresh; after it the line may end. Since chains
are folded as they are read, they lean to the left.

## Main results

* `Outer.close_empty` — with nothing to its left a command is a tree by itself.
* `step_rest_text`, `step_rest_redirection`, `step_rest_pipe`, `step_rest_connective`,
  `step_rest_semicolon`, `step_name_text`, `step_file_text` — what a token does.
* `feed_rest_texts` — texts behind a command are its arguments.
* `stepsTo_of_step` — that is all it can do.
* `isRest_of_step_boundary`, `isRest_of_finish` — a command ends only where it is complete.
* `feed_eq_fresh_iff` — a tree may start after a semicolon.
-/

namespace MemShell.TokenKind

/-- The connective that a kind of token is. -/
def connective? : TokenKind → Option Connective
  | .and => some .and
  | .or => some .or
  | _ => none

/-- What a redirection operator does to its file. -/
def redirectKind? : TokenKind → Option RedirectKind
  | .redirect => some .write
  | .append => some .append
  | _ => none

/-- A token is a text, a redirection operator or a boundary. -/
theorem isText_or_redirects_or_isBoundary (k : TokenKind) :
    k.isText = true ∨ (∃ r, k.redirectKind? = some r) ∨ k.isBoundary = true := by
  cases k <;> simp [isText, redirectKind?, isBoundary]

/-- A boundary is a pipe, a connective or a semicolon. -/
theorem boundary_cases {k : TokenKind} (h : k.isBoundary = true) :
    k = .pipe ∨ (∃ c, k.connective? = some c) ∨ k = .semicolon := by
  cases k <;> simp_all [isBoundary, connective?]

theorem isBoundary_of_connective? {k : TokenKind} {c : Connective}
    (h : k.connective? = some c) : k.isBoundary = true := by
  cases k <;> first | rfl | cases h

theorem isText_of_isBoundary {k : TokenKind} (h : k.isBoundary = true) : k.isText = false := by
  cases k <;> first | rfl | cases h

theorem isText_of_redirectKind? {k : TokenKind} {r : RedirectKind}
    (h : k.redirectKind? = some r) : k.isText = false := by
  cases k <;> first | rfl | cases h

theorem redirectKind?_of_isText {k : TokenKind} (h : k.isText = true) :
    k.redirectKind? = none := by
  cases k <;> first | rfl | cases h

end MemShell.TokenKind

namespace MemShell.Tree.Parse

/-- What stands to the left of the current command. -/
structure Outer where
  /-- The left operand and the connective that wait for a right operand. -/
  chain : Option (Tree × Connective)
  /-- The finished stages of the current pipeline, last first. -/
  stages : List Simple
deriving DecidableEq, Repr

namespace Outer

def empty : Outer :=
  ⟨none, []⟩

/-- The tree that a last command completes. -/
def close (o : Outer) (c : Simple) : Tree :=
  let right := Tree.ofStages (c :: o.stages).reverse
  match o.chain with
  | none => right
  | some (left, connective) => .logical left connective right

theorem close_empty (c : Simple) : empty.close c = .simple c :=
  rfl

end Outer

/-- What the reader expects. -/
inductive Mode where
  /-- A tree may start here, or the line may end. -/
  | fresh
  /-- A command name must come. -/
  | name (outer : Outer)
  /-- The command goes on; arguments and redirections are kept last first. -/
  | rest (outer : Outer) (command : String) (args : List String) (redirects : List Redirect)
  /-- The file name of a redirection must come. -/
  | file (outer : Outer) (command : String) (args : List String) (redirects : List Redirect)
      (kind : RedirectKind)
deriving DecidableEq, Repr

def ofRead (command : String) (args : List String) (redirects : List Redirect) : Simple :=
  ⟨command, args.reverse, redirects.reverse⟩

/-- Reads a token where a command name must come. -/
def readName (outer : Outer) (t : Token) : Except ParseError (List Tree × Mode) :=
  if t.kind.isText then .ok ([], .rest outer t.value [] [])
  else .error (.noCommand (some t.kind))

def step : Mode → Token → Except ParseError (List Tree × Mode)
  | .fresh, t => readName .empty t
  | .name outer, t => readName outer t
  | .rest outer command args redirects, t =>
      match t.kind with
      | .word | .doubleQuoted | .singleQuoted =>
          .ok ([], .rest outer command (t.value :: args) redirects)
      | .redirect => .ok ([], .file outer command args redirects .write)
      | .append => .ok ([], .file outer command args redirects .append)
      | .pipe =>
          .ok ([], .name ⟨outer.chain, ofRead command args redirects :: outer.stages⟩)
      | .and => .ok ([], .name ⟨some (outer.close (ofRead command args redirects), .and), []⟩)
      | .or => .ok ([], .name ⟨some (outer.close (ofRead command args redirects), .or), []⟩)
      | .semicolon => .ok ([outer.close (ofRead command args redirects)], .fresh)
  | .file outer command args redirects kind, t =>
      if t.kind.isText then .ok ([], .rest outer command args (⟨kind, t.value⟩ :: redirects))
      else .error .noFile

/-- The tree that the end of the line completes. -/
def finish : Mode → Except ParseError (List Tree)
  | .fresh => .ok []
  | .name _ => .error (.noCommand none)
  | .rest outer command args redirects => .ok [outer.close (ofRead command args redirects)]
  | .file .. => .error .noFile

def reader : Transducer Mode Token Tree ParseError where
  step := step
  finish := finish

/-! ## One token -/

section Steps

variable {o : Outer} {command : String} {args : List String} {redirects : List Redirect}
  {t : Token}

theorem step_name_text (h : t.kind.isText = true) :
    reader.step (.name o) t = .ok ([], .rest o t.value [] []) :=
  if_pos h

theorem step_rest_text (h : t.kind.isText = true) :
    reader.step (.rest o command args redirects) t =
      .ok ([], .rest o command (t.value :: args) redirects) := by
  obtain ⟨kind, value⟩ := t
  cases kind <;> first | rfl | cases h

/-- Where a command goes on, texts are its next arguments. -/
theorem feed_rest_texts {ts : List Token} (h : ∀ t ∈ ts, t.kind.isText = true) :
    ∀ args, reader.feed (.rest o command args redirects) ts =
      .ok ([], .rest o command ((ts.map Token.value).reverse ++ args) redirects) := by
  induction ts with
  | nil => exact fun args => rfl
  | cons t ts ih =>
      intro args
      rw [Transducer.feed_cons_of_silent (step_rest_text (h t List.mem_cons_self)),
        ih fun u hu => h u (List.mem_cons_of_mem t hu)]
      simp

theorem step_rest_redirection {kind : RedirectKind} (h : t.kind.redirectKind? = some kind) :
    reader.step (.rest o command args redirects) t =
      .ok ([], .file o command args redirects kind) := by
  obtain ⟨k, value⟩ := t
  cases k <;> cases h <;> rfl

theorem step_rest_pipe (h : t.kind = .pipe) :
    reader.step (.rest o command args redirects) t =
      .ok ([], .name ⟨o.chain, ofRead command args redirects :: o.stages⟩) := by
  obtain ⟨k, value⟩ := t
  cases h
  rfl

theorem step_rest_connective {c : Connective} (h : t.kind.connective? = some c) :
    reader.step (.rest o command args redirects) t =
      .ok ([], .name ⟨some (o.close (ofRead command args redirects), c), []⟩) := by
  obtain ⟨k, value⟩ := t
  cases k <;> cases h <;> rfl

theorem step_rest_semicolon (h : t.kind = .semicolon) :
    reader.step (.rest o command args redirects) t =
      .ok ([o.close (ofRead command args redirects)], .fresh) := by
  obtain ⟨k, value⟩ := t
  cases h
  rfl

theorem step_file_text {kind : RedirectKind} (h : t.kind.isText = true) :
    reader.step (.file o command args redirects kind) t =
      .ok ([], .rest o command args (⟨kind, t.value⟩ :: redirects)) :=
  if_pos h

theorem step_name_not_text (h : t.kind.isText = false) :
    reader.step (.name o) t = .error (.noCommand (some t.kind)) :=
  if_neg (by simp [h])

theorem step_file_not_text {kind : RedirectKind} (h : t.kind.isText = false) :
    reader.step (.file o command args redirects kind) t = .error .noFile :=
  if_neg (by simp [h])

end Steps

/-- A tree starts as a command does. -/
theorem step_fresh (t : Token) : reader.step .fresh t = reader.step (.name .empty) t :=
  rfl

/-- All that a token can do where it is not refused. -/
inductive StepsTo : Mode → Token → List Tree → Mode → Prop
  | first {t : Token} (hText : t.kind.isText = true) :
      StepsTo .fresh t [] (.rest .empty t.value [] [])
  | name {t : Token} (o : Outer) (hText : t.kind.isText = true) :
      StepsTo (.name o) t [] (.rest o t.value [] [])
  | arg {t : Token} (o : Outer) (command : String) (args : List String)
      (redirects : List Redirect) (hText : t.kind.isText = true) :
      StepsTo (.rest o command args redirects) t [] (.rest o command (t.value :: args) redirects)
  | file {t : Token} (o : Outer) (command : String) (args : List String)
      (redirects : List Redirect) (kind : RedirectKind) (hText : t.kind.isText = true) :
      StepsTo (.file o command args redirects kind) t []
        (.rest o command args (⟨kind, t.value⟩ :: redirects))
  | redirection {t : Token} (o : Outer) (command : String) (args : List String)
      (redirects : List Redirect) {kind : RedirectKind}
      (hKind : t.kind.redirectKind? = some kind) :
      StepsTo (.rest o command args redirects) t [] (.file o command args redirects kind)
  | pipe {t : Token} (o : Outer) (command : String) (args : List String)
      (redirects : List Redirect) (hKind : t.kind = .pipe) :
      StepsTo (.rest o command args redirects) t []
        (.name ⟨o.chain, ofRead command args redirects :: o.stages⟩)
  | connective {t : Token} (o : Outer) (command : String) (args : List String)
      (redirects : List Redirect) {c : Connective} (hKind : t.kind.connective? = some c) :
      StepsTo (.rest o command args redirects) t []
        (.name ⟨some (o.close (ofRead command args redirects), c), []⟩)
  | semicolon {t : Token} (o : Outer) (command : String) (args : List String)
      (redirects : List Redirect) (hKind : t.kind = .semicolon) :
      StepsTo (.rest o command args redirects) t
        [o.close (ofRead command args redirects)] .fresh

/-- Where a command is complete, so that a boundary or the end of the line may come. -/
def Mode.isRest : Mode → Bool
  | rest .. => true
  | _ => false

/-- Only a text comes where a command is not complete. -/
theorem isText_of_step {m m' : Mode} {t : Token} {out : List Tree}
    (hStep : reader.step m t = .ok (out, m')) (hRest : m.isRest = false) :
    t.kind.isText = true := by
  cases hText : t.kind.isText with
  | true => rfl
  | false =>
      cases m with
      | fresh => simp [step_fresh, step_name_not_text hText] at hStep
      | name o => simp [step_name_not_text hText] at hStep
      | rest o command args redirects => cases hRest
      | file o command args redirects kind => simp [step_file_not_text hText] at hStep

theorem stepsTo_of_step {m m' : Mode} {t : Token} {out : List Tree}
    (hStep : reader.step m t = .ok (out, m')) : StepsTo m t out m' := by
  cases m with
  | fresh =>
      have hText := isText_of_step hStep rfl
      rw [step_fresh, step_name_text hText] at hStep
      cases hStep
      exact .first hText
  | name o =>
      have hText := isText_of_step hStep rfl
      rw [step_name_text hText] at hStep
      cases hStep
      exact .name o hText
  | file o command args redirects kind =>
      have hText := isText_of_step hStep rfl
      rw [step_file_text hText] at hStep
      cases hStep
      exact .file o command args redirects kind hText
  | rest o command args redirects =>
      rcases t.kind.isText_or_redirects_or_isBoundary with hText | ⟨kind, hKind⟩ | hBoundary
      · rw [step_rest_text hText] at hStep
        cases hStep
        exact .arg o command args redirects hText
      · rw [step_rest_redirection hKind] at hStep
        cases hStep
        exact .redirection o command args redirects hKind
      · rcases TokenKind.boundary_cases hBoundary with hKind | ⟨c, hKind⟩ | hKind
        · rw [step_rest_pipe hKind] at hStep
          cases hStep
          exact .pipe o command args redirects hKind
        · rw [step_rest_connective hKind] at hStep
          cases hStep
          exact .connective o command args redirects hKind
        · rw [step_rest_semicolon hKind] at hStep
          cases hStep
          exact .semicolon o command args redirects hKind

/-- Only a complete command can be followed by a boundary. -/
theorem isRest_of_step_boundary {m m' : Mode} {t : Token} {out : List Tree}
    (hBoundary : t.kind.isBoundary = true) (hStep : reader.step m t = .ok (out, m')) :
    m.isRest = true := by
  cases hRest : m.isRest with
  | true => rfl
  | false =>
      have hText := isText_of_step hStep hRest
      rw [TokenKind.isText_of_isBoundary hBoundary] at hText
      cases hText

/-- A tree is given out, and another may start, after a semicolon and nowhere else. -/
theorem eq_fresh_iff {m m' : Mode} {t : Token} {out : List Tree}
    (hStep : reader.step m t = .ok (out, m')) : m' = .fresh ↔ t.kind = .semicolon := by
  have hText : t.kind.isText = true → t.kind ≠ .semicolon := by
    rintro hText hKind
    rw [hKind] at hText
    cases hText
  cases stepsTo_of_step hStep with
  | first hT => simpa using hText hT
  | name o hT => simpa using hText hT
  | arg o command args redirects hT => simpa using hText hT
  | file o command args redirects kind hT => simpa using hText hT
  | redirection o command args redirects hKind =>
      have hNot : t.kind ≠ .semicolon := by
        rintro h
        rw [h] at hKind
        cases hKind
      simpa using hNot
  | pipe o command args redirects hKind => simp [hKind]
  | connective o command args redirects hKind =>
      have hNot : t.kind ≠ .semicolon := by
        rintro h
        rw [h] at hKind
        cases hKind
      simpa using hNot
  | semicolon o command args redirects hKind => simpa using hKind

/-- Having read tokens, the reader expects a tree exactly if the last one is a semicolon. -/
theorem feed_eq_fresh_iff {m m' : Mode} {ts : List Token} {t : Token} {out : List Tree}
    (hFeed : reader.feed m (ts ++ [t]) = .ok (out, m')) : m' = .fresh ↔ t.kind = .semicolon := by
  obtain ⟨before, m₁, rest, -, hLast, -⟩ := Transducer.feed_append_eq_ok_iff.mp hFeed
  obtain ⟨first, m₂, rest', hStep, hNil, -⟩ := Transducer.feed_cons_eq_ok_iff.mp hLast
  cases hNil
  exact eq_fresh_iff hStep

/-- The line can end after a complete command, or where a tree may start. -/
theorem isRest_of_finish {m : Mode} {out : List Tree} (hFinish : reader.finish m = .ok out)
    (hFresh : m ≠ .fresh) : m.isRest = true := by
  cases m with
  | fresh => exact absurd rfl hFresh
  | name o => cases hFinish
  | rest o command args redirects => rfl
  | file o command args redirects k => cases hFinish

end MemShell.Tree.Parse

namespace MemShell.Tree

def build (ts : List Token) : Except ParseError (List Tree) :=
  Parse.reader.run .fresh ts

end MemShell.Tree
