import Mathlib.Data.List.Basic
import MemShell.Tree.Parse

/-!
# What the tokens of a line are for

Every token of a line has one role, and the token before it tells which. A text is
a command name at the start of a line and after a boundary, the file of a
redirection after its operator, and an argument after another text. Pipes and
connectives stand for themselves. An operator `>` or `>>` counts together with its
file, and a semicolon only ends a tree.

Reading trees moves texts about, since a command keeps its arguments apart from its
redirections. It moves them past texts of other roles only: for each role the trees
hold what the tokens say, in the same order, with nothing lost and nothing twice
(`SameByRole`).

The reader's state stands for the items read and not yet given out (`Mode.items`).
A step adds the item of its token to what the state holds or gives out
(`sameByRole_step`), and so a whole reading gives out the items of its tokens.

## Main results

* `Outer.items_close` — a tree holds what stood to the left of its last command.
* `sameByRole_run` — role by role, trees hold what their tokens say.
-/

namespace MemShell

/-- What a part of a line is. -/
inductive Item where
  | name (text : String)
  | argument (text : String)
  | redirection (redirect : Redirect)
  | connective (connective : Connective)
  | pipe
deriving DecidableEq, Repr

/-- What a part of a line is for. -/
inductive Role where
  | name
  | argument
  | redirection
  | connective
  | pipe
deriving DecidableEq, Repr

def Item.role : Item → Role
  | name _ => .name
  | argument _ => .argument
  | redirection _ => .redirection
  | connective _ => .connective
  | pipe => .pipe

/-- For each role the same items in the same order. -/
def SameByRole (xs ys : List Item) : Prop :=
  ∀ r : Role, xs.filter (·.role = r) = ys.filter (·.role = r)

namespace SameByRole

theorem refl (xs : List Item) : SameByRole xs xs :=
  fun _ => rfl

theorem trans {xs ys zs : List Item} (h : SameByRole xs ys) (h' : SameByRole ys zs) :
    SameByRole xs zs :=
  fun r => (h r).trans (h' r)

theorem append {xs ys xs' ys' : List Item} (h : SameByRole xs ys) (h' : SameByRole xs' ys') :
    SameByRole (xs ++ xs') (ys ++ ys') := by
  intro r
  rw [List.filter_append, List.filter_append, h r, h' r]

end SameByRole

/-! ## The items of tokens and of trees -/

/-- What a text is after another token. -/
def Token.textItem (before : Option Token) (text : String) : Item :=
  match before with
  | none => .name text
  | some b =>
      if b.kind.isBoundary then .name text
      else
        match b.kind.redirectKind? with
        | some kind => .redirection ⟨kind, text⟩
        | none => .argument text

/-- What a token is after another token. -/
def Token.item? (before : Option Token) (t : Token) : Option Item :=
  match t.kind with
  | .word | .doubleQuoted | .singleQuoted => some (textItem before t.value)
  | .pipe => some .pipe
  | .and => some (.connective .and)
  | .or => some (.connective .or)
  | .redirect | .append | .semicolon => none

/-- What tokens are after another token. -/
def Token.itemsAfter : Option Token → List Token → List Item
  | _, [] => []
  | before, t :: ts => (item? before t).toList ++ itemsAfter (some t) ts

def Simple.items (c : Simple) : List Item :=
  .name c.command :: c.args.map .argument ++ c.redirects.map .redirection

def Tree.items : Tree → List Item
  | simple c => c.items
  | pipeline stages => [Item.pipe].intercalate (stages.map Simple.items)
  | logical left connective right => left.items ++ [.connective connective] ++ right.items

namespace Tree.Parse

/-- What stands to the left of a command, with the operator that led to it. -/
def Outer.items (o : Outer) : List Item :=
  (match o.chain with
    | none => []
    | some (left, connective) => left.items ++ [.connective connective]) ++
    o.stages.reverse.flatMap fun c => c.items ++ [.pipe]

/-- What was read and not given out yet. -/
def Mode.items : Mode → List Item
  | fresh => []
  | name o => o.items
  | rest o command args redirects => o.items ++ (ofRead command args redirects).items
  | file o command args redirects _ => o.items ++ (ofRead command args redirects).items

private theorem items_ofStages (stages : List Simple) (c : Simple) :
    (ofStages (stages ++ [c])).items =
      (stages.flatMap fun s => s.items ++ [.pipe]) ++ c.items := by
  have hPipes : [Item.pipe].intercalate ((stages ++ [c]).map Simple.items) =
      (stages.flatMap fun s => s.items ++ [.pipe]) ++ c.items := by
    induction stages with
    | nil => simp
    | cons s stages ih =>
        obtain ⟨first, rest, hCons⟩ := List.exists_cons_of_ne_nil (l := stages ++ [c]) (by simp)
        rw [List.cons_append, hCons, List.map_cons, List.map_cons, List.intercalate_cons_cons,
          ← List.map_cons, ← hCons, ih]
        simp
  match stages with
  | [] => simp [ofStages, Tree.items]
  | s :: stages =>
      rw [← hPipes]
      cases stages <;> rfl

/-- A tree holds what stood to the left of its last command. -/
theorem Outer.items_close (o : Outer) (c : Simple) : (o.close c).items = o.items ++ c.items := by
  obtain ⟨chain, stages⟩ := o
  cases chain with
  | none => simp [close, Outer.items, items_ofStages]
  | some p => simp [close, Outer.items, Tree.items, items_ofStages]

/-! ## One token -/

/-- The mode that the token before leads to. -/
def Follows : Mode → Option Token → Prop
  | .fresh, before => ∀ t ∈ before, t.kind = .semicolon
  | .name _, before => ∃ t ∈ before, t.kind.isBoundary = true
  | .rest .., before => ∃ t ∈ before, t.kind.isText = true
  | .file _ _ _ _ kind, before => ∃ t ∈ before, t.kind.redirectKind? = some kind

theorem follows_step {m m' : Mode} {t : Token} {out : List Tree}
    (hStep : reader.step m t = .ok (out, m')) : Follows m' (some t) := by
  cases stepsTo_of_step hStep with
  | first hText => exact ⟨t, rfl, hText⟩
  | name o hText => exact ⟨t, rfl, hText⟩
  | arg o command args redirects hText => exact ⟨t, rfl, hText⟩
  | file o command args redirects kind hText => exact ⟨t, rfl, hText⟩
  | redirection o command args redirects hKind => exact ⟨t, rfl, hKind⟩
  | pipe o command args redirects hKind => exact ⟨t, rfl, by rw [hKind]; rfl⟩
  | connective o command args redirects hKind =>
      exact ⟨t, rfl, TokenKind.isBoundary_of_connective? hKind⟩
  | semicolon o command args redirects hKind =>
      intro u hu
      obtain rfl := Option.some.inj hu
      exact hKind

/-- What a text is for, by what the reader expects. -/
def Mode.textItem (text : String) : Mode → Item
  | .fresh | .name _ => .name text
  | .rest .. => .argument text
  | .file _ _ _ _ kind => .redirection ⟨kind, text⟩

private theorem item?_of_isText {m : Mode} {before : Option Token} (hFollows : Follows m before)
    {t : Token} (hText : t.kind.isText = true) :
    Token.item? before t = some (m.textItem t.value) := by
  have hItem : Token.item? before t = some (Token.textItem before t.value) := by
    obtain ⟨kind, value⟩ := t
    cases kind <;> first | rfl | cases hText
  rw [hItem]
  cases m with
  | fresh =>
      cases before with
      | none => rfl
      | some b => simp [Token.textItem, Mode.textItem, hFollows b rfl, TokenKind.isBoundary]
  | name o =>
      obtain ⟨b, rfl, hBoundary⟩ := hFollows
      simp [Token.textItem, Mode.textItem, hBoundary]
  | rest o command args redirects =>
      obtain ⟨b, rfl, hBefore⟩ := hFollows
      have hBoundary : b.kind.isBoundary = false := by
        cases h : b.kind <;> simp_all [TokenKind.isText, TokenKind.isBoundary]
      simp [Token.textItem, Mode.textItem, hBoundary, TokenKind.redirectKind?_of_isText hBefore]
  | file o command args redirects kind =>
      obtain ⟨b, rfl, hBefore⟩ := hFollows
      have hBoundary : b.kind.isBoundary = false := by
        cases h : b.kind <;> simp_all [TokenKind.redirectKind?, TokenKind.isBoundary]
      simp [Token.textItem, Mode.textItem, hBoundary, hBefore]

/-- A later argument goes before the redirections. -/
private theorem sameByRole_arg (command : String) (args : List String)
    (redirects : List Redirect) (text : String) :
    SameByRole (ofRead command (text :: args) redirects).items
      ((ofRead command args redirects).items ++ [.argument text]) := by
  intro r
  cases r <;> simp [ofRead, Simple.items, Item.role, List.filter_map, Function.comp_def,
    List.filter_false]

private theorem items_redirect (command : String) (args : List String)
    (redirects : List Redirect) (redirect : Redirect) :
    (ofRead command args (redirect :: redirects)).items =
      (ofRead command args redirects).items ++ [.redirection redirect] := by
  simp [ofRead, Simple.items]

/-- **One token** adds its item to what the reader holds or gives out. -/
theorem sameByRole_step {m m' : Mode} {before : Option Token} {t : Token} {out : List Tree}
    (hFollows : Follows m before) (hStep : reader.step m t = .ok (out, m')) :
    SameByRole (out.flatMap Tree.items ++ m'.items)
      (m.items ++ (Token.item? before t).toList) := by
  cases stepsTo_of_step hStep with
  | first hText =>
      rw [item?_of_isText hFollows hText]
      exact .refl _
  | name o hText =>
      rw [item?_of_isText hFollows hText]
      exact .refl _
  | arg o command args redirects hText =>
      rw [item?_of_isText hFollows hText]
      have hArg := (SameByRole.refl o.items).append
        (sameByRole_arg command args redirects t.value)
      simpa [Mode.items, Mode.textItem] using hArg
  | file o command args redirects kind hText =>
      rw [item?_of_isText hFollows hText]
      simpa [Mode.items, Mode.textItem, items_redirect] using SameByRole.refl _
  | redirection o command args redirects hKind =>
      have hItem : Token.item? before t = none := by
        cases h : t.kind <;> simp_all [Token.item?, TokenKind.redirectKind?]
      rw [hItem]
      simpa [Mode.items] using SameByRole.refl _
  | pipe o command args redirects hKind =>
      have hItem : Token.item? before t = some .pipe := by
        simp [Token.item?, hKind]
      rw [hItem]
      simpa [Mode.items, Outer.items] using SameByRole.refl _
  | @connective _ o command args redirects c hKind =>
      have hItem : Token.item? before t = some (.connective c) := by
        cases h : t.kind <;> simp_all [Token.item?, TokenKind.connective?]
      have hHeld : Outer.items ⟨some (o.close (ofRead command args redirects), c), []⟩ =
          o.items ++ (ofRead command args redirects).items ++ [.connective c] := by
        rw [← Outer.items_close]
        simp [Outer.items]
      rw [hItem]
      simpa [Mode.items, hHeld] using SameByRole.refl _
  | semicolon o command args redirects hKind =>
      have hItem : Token.item? before t = none := by
        simp [Token.item?, hKind]
      rw [hItem]
      simpa [Mode.items, Outer.items_close] using SameByRole.refl _

/-! ## Whole lines -/

private theorem items_finish {m : Mode} {out : List Tree} (hFinish : reader.finish m = .ok out) :
    out.flatMap Tree.items = m.items := by
  cases m with
  | fresh =>
      cases hFinish
      rfl
  | name o => cases hFinish
  | rest o command args redirects =>
      cases hFinish
      simp [Mode.items, Outer.items_close]
  | file o command args redirects kind => cases hFinish

/-- **Nothing is lost, nothing is there twice.** From a mode that the token before leads to,
the trees that are read hold, role by role, what the mode held and what the tokens say. -/
theorem sameByRole_run (ts : List Token) :
    ∀ {m : Mode} {before : Option Token} {trees : List Tree}, Follows m before →
      reader.run m ts = .ok trees →
      SameByRole (trees.flatMap Tree.items) (m.items ++ Token.itemsAfter before ts) := by
  induction ts with
  | nil =>
      intro m before trees hFollows hRun
      have hItems : trees.flatMap Tree.items = m.items := items_finish hRun
      rw [hItems, Token.itemsAfter, List.append_nil]
      exact .refl _
  | cons t ts ih =>
      intro m before trees hFollows hRun
      obtain ⟨out, m', rest, hFeed, hFinish, rfl⟩ := Transducer.run_eq_ok_iff.mp hRun
      obtain ⟨first, m₁, later, hStep, hLater, rfl⟩ := Transducer.feed_cons_eq_ok_iff.mp hFeed
      have hRest := ih (follows_step hStep)
        (Transducer.run_eq_ok_iff.mpr ⟨later, m', rest, hLater, hFinish, rfl⟩)
      have hFirst := sameByRole_step hFollows hStep
      -- the items that `t` left in the state are on the left of what the rest adds
      have hBoth := ((SameByRole.refl (first.flatMap Tree.items)).append hRest).trans
        (by simpa using hFirst.append (.refl (Token.itemsAfter (some t) ts)))
      simpa [Token.itemsAfter] using hBoth

end Tree.Parse

end MemShell
