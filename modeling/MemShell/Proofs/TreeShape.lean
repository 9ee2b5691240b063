import Mathlib.Data.List.Forall2
import MemShell.Session

/-!
# The shape of a line does not depend on values

A variable can stand for any text, with blanks, quotes, operators or references
in it. None of that can add an argument to a command, start a pipeline or make a
line ill-formed: the trees of a line have the same shape whatever the variables
hold, and a line that is refused is refused for the same reason.

The argument takes the texts away. A token, a command, a tree and a state of the
reader of trees each have a *blank* form, in which every text is empty and all
else is kept. The reader decides by kinds only, so it commutes with blanking
(`build_blank`); filling in references keeps kinds and refuses by the text alone,
so its blank result is the same for every environment
(`expandVariablesList_blank`). Two readings of one line therefore have the same
blank trees, and trees with the same blank form have the same shape
(`Tree.sameShape_of_blank_eq`).

## Main results

* `build_blank` — building trees commutes with blanking.
* `expandVariablesList_blank` — blank tokens do not depend on values.
* `parse_sameReading` — neither does the reading of a line.
-/

namespace MemShell

/-! ## Shapes -/

/-- Commands with as many arguments and with the same kinds of redirections. -/
structure Simple.SameShape (c d : Simple) : Prop where
  args : c.args.length = d.args.length
  redirects : c.redirects.map Redirect.kind = d.redirects.map Redirect.kind

/-- Trees that differ in the texts of their commands only. -/
inductive Tree.SameShape : Tree → Tree → Prop
  | simple {c d : Simple} : c.SameShape d → SameShape (.simple c) (.simple d)
  | pipeline {stages stages' : List Simple} :
      List.Forall₂ Simple.SameShape stages stages' →
      SameShape (.pipeline stages) (.pipeline stages')
  | logical {left left' right right' : Tree} (connective : Connective) :
      SameShape left left' → SameShape right right' →
      SameShape (.logical left connective right) (.logical left' connective right')

/-- Two readings of a line that fail alike, or give trees of the same shapes. -/
inductive SameReading : Except LineError (List Tree) → Except LineError (List Tree) → Prop
  | error (e : LineError) : SameReading (.error e) (.error e)
  | ok {ts us : List Tree} :
      List.Forall₂ Tree.SameShape ts us → SameReading (.ok ts) (.ok us)

/-! ## Blank forms -/

def Token.blank (t : Token) : Token :=
  ⟨t.kind, ""⟩

def Redirect.blank (r : Redirect) : Redirect :=
  ⟨r.kind, ""⟩

def Simple.blank (c : Simple) : Simple :=
  ⟨"", c.args.map fun _ => "", c.redirects.map Redirect.blank⟩

def Tree.blank : Tree → Tree
  | simple c => simple c.blank
  | pipeline stages => pipeline (stages.map Simple.blank)
  | logical left connective right => logical left.blank connective right.blank

theorem Simple.sameShape_of_blank_eq {c d : Simple} (h : c.blank = d.blank) :
    c.SameShape d := by
  obtain ⟨-, hArgs, hRedirects⟩ := Simple.mk.inj h
  refine ⟨?_, ?_⟩
  · have hLength := congrArg List.length hArgs
    simpa using hLength
  · have hKinds := congrArg (List.map Redirect.kind) hRedirects
    rw [List.map_map, List.map_map] at hKinds
    exact hKinds

private theorem forall₂_of_map_eq {α β : Type} {f : α → β} {R : α → α → Prop}
    (hR : ∀ x y, f x = f y → R x y) {xs ys : List α} (h : xs.map f = ys.map f) :
    List.Forall₂ R xs ys := by
  have hEq : List.Forall₂ (· = ·) (xs.map f) (ys.map f) := by
    rw [List.forall₂_eq_eq_eq]
    exact h
  rw [List.forall₂_map_left_iff, List.forall₂_map_right_iff] at hEq
  exact hEq.imp hR

theorem Tree.sameShape_of_blank_eq {t : Tree} :
    ∀ {u : Tree}, t.blank = u.blank → t.SameShape u := by
  induction t with
  | simple c =>
      intro u h
      cases u with
      | simple d => exact .simple (Simple.sameShape_of_blank_eq (Tree.simple.inj h))
      | pipeline _ => cases h
      | logical _ _ _ => cases h
  | pipeline stages =>
      intro u h
      cases u with
      | simple _ => cases h
      | pipeline stages' =>
          exact .pipeline (forall₂_of_map_eq (fun _ _ => Simple.sameShape_of_blank_eq)
            (Tree.pipeline.inj h))
      | logical _ _ _ => cases h
  | logical left connective right ihLeft ihRight =>
      intro u h
      cases u with
      | simple _ => cases h
      | pipeline _ => cases h
      | logical left' connective' right' =>
          obtain ⟨hLeft, rfl, hRight⟩ := Tree.logical.inj h
          exact .logical connective (ihLeft hLeft) (ihRight hRight)

/-! ## The reader of trees sees kinds only -/

namespace Tree

private theorem blank_ofStages (stages : List Simple) :
    (ofStages stages).blank = ofStages (stages.map Simple.blank) := by
  match stages with
  | [] => rfl
  | [_] => rfl
  | _ :: _ :: _ => rfl

namespace Parse

def Outer.blank (o : Outer) : Outer :=
  ⟨o.chain.map fun p => (p.1.blank, p.2), o.stages.map Simple.blank⟩

def Mode.blank : Mode → Mode
  | fresh => fresh
  | name o => name o.blank
  | rest o _ args redirects =>
      rest o.blank "" (args.map fun _ => "") (redirects.map Redirect.blank)
  | file o _ args redirects kind =>
      file o.blank "" (args.map fun _ => "") (redirects.map Redirect.blank) kind

private theorem blank_ofRead (command : String) (args : List String)
    (redirects : List Redirect) :
    (ofRead command args redirects).blank =
      ofRead "" (args.map fun _ => "") (redirects.map Redirect.blank) := by
  simp [ofRead, Simple.blank, List.map_reverse]

private theorem blank_close (o : Outer) (c : Simple) :
    (o.close c).blank = o.blank.close c.blank := by
  have hStages := blank_ofStages (c :: o.stages).reverse
  rw [List.map_reverse] at hStages
  obtain ⟨chain, stages⟩ := o
  cases chain with
  | none => exact hStages
  | some p => exact congrArg (Tree.logical p.1.blank p.2) hStages

private theorem readName_blank (o : Outer) (t : Token) :
    readName o.blank t.blank =
      (readName o t).map fun p => (p.1.map Tree.blank, Mode.blank p.2) := by
  show (if t.kind.isText then _ else _) = (if t.kind.isText then _ else _ : Except _ _).map _
  cases t.kind.isText <;> rfl

/-- One token: what is expected next, and what is refused, depends on its kind. -/
private theorem step_blank (m : Mode) (t : Token) :
    reader.step m.blank t.blank =
      (reader.step m t).map fun p => (p.1.map Tree.blank, Mode.blank p.2) := by
  obtain ⟨kind, value⟩ := t
  cases m with
  | fresh => exact readName_blank .empty ⟨kind, value⟩
  | name o => exact readName_blank o ⟨kind, value⟩
  | rest o command args redirects =>
      have hClose := blank_close o (ofRead command args redirects)
      rw [blank_ofRead] at hClose
      cases kind with
      | pipe =>
          show Except.ok ([], Mode.name ⟨_, ofRead _ _ _ :: _⟩) = _
          rw [← blank_ofRead command]
          rfl
      | and =>
          show Except.ok ([], Mode.name ⟨some (o.blank.close _, .and), []⟩) = _
          rw [← hClose]
          rfl
      | or =>
          show Except.ok ([], Mode.name ⟨some (o.blank.close _, .or), []⟩) = _
          rw [← hClose]
          rfl
      | semicolon =>
          show Except.ok ([o.blank.close _], Mode.fresh) = _
          rw [← hClose]
          rfl
      | _ => rfl
  | file o command args redirects kind' => cases kind <;> rfl

private theorem finish_blank (m : Mode) :
    reader.finish m.blank = (reader.finish m).map (List.map Tree.blank) := by
  cases m with
  | rest o command args redirects =>
      show Except.ok [o.blank.close _] = Except.ok [(o.close _).blank]
      rw [blank_close, blank_ofRead]
  | _ => rfl

end Parse

/-- **Building trees commutes with blanking**, refusals included. -/
theorem build_blank (ts : List Token) :
    build (ts.map Token.blank) = (build ts).map (List.map blank) :=
  Parse.reader.run_map Parse.Mode.blank Token.blank blank Parse.step_blank Parse.finish_blank
    .fresh ts

end Tree

/-! ## Filling in references keeps kinds -/

/-- Results that agree up to a function fail alike or succeed alike. -/
private theorem map_eq_map_cases {ε α β : Type} {x y : Except ε α} {f : α → β}
    (h : x.map f = y.map f) :
    (∃ e, x = .error e ∧ y = .error e) ∨ ∃ a b, x = .ok a ∧ y = .ok b ∧ f a = f b := by
  cases x with
  | error e =>
      cases y with
      | error e' =>
          obtain rfl : e = e' := Except.error.inj h
          exact .inl ⟨e, rfl, rfl⟩
      | ok b => cases h
  | ok a =>
      cases y with
      | error e' => cases h
      | ok b => exact .inr ⟨a, b, rfl, rfl, Except.ok.inj h⟩

namespace Token

private theorem expandVariables_blank (env env' : Table String String) (t : Token) :
    (t.expandVariables env).map blank = (t.expandVariables env').map blank := by
  have hRead : ∀ kind : TokenKind,
      ((expandText env t.value).map (Token.mk kind)).map blank =
        ((expandText env' t.value).map (Token.mk kind)).map blank := by
    intro kind
    unfold expandText
    cases Piece.ofText t.value <;> rfl
  obtain ⟨kind, value⟩ := t
  cases kind with
  | word => exact hRead .word
  | doubleQuoted => exact hRead .doubleQuoted
  | _ => rfl

/-- **Blank tokens do not depend on values**, and neither does a refusal. -/
theorem expandVariablesList_blank (env env' : Table String String) (ts : List Token) :
    (expandVariablesList env ts).map (List.map blank) =
      (expandVariablesList env' ts).map (List.map blank) := by
  unfold expandVariablesList
  induction ts with
  | nil => rfl
  | cons t ts ih =>
      rw [List.mapM_cons, List.mapM_cons]
      rcases map_eq_map_cases (expandVariables_blank env env' t) with
        ⟨e, hLeft, hRight⟩ | ⟨u, u', hLeft, hRight, hHead⟩
      · rw [hLeft, hRight]
        rfl
      · rcases map_eq_map_cases ih with ⟨e, hRest, hRest'⟩ | ⟨us, us', hRest, hRest', hTail⟩
        · rw [hLeft, hRight, hRest, hRest']
          rfl
        · rw [hLeft, hRight, hRest, hRest']
          show Except.ok (u.blank :: us.map blank) = Except.ok (u'.blank :: us'.map blank)
          rw [hHead, hTail]

end Token

/-! ## Two readings of a line -/

private theorem parseWith_blank (aliases env env' : Table String String) (line : String) :
    (Session.parseWith aliases env line).map (List.map Tree.blank) =
      (Session.parseWith aliases env' line).map (List.map Tree.blank) := by
  unfold Session.parseWith
  cases (Token.tokenize line).mapError LineError.lexical with
  | error e => rfl
  | ok tokens =>
      simp only [bind, Except.bind]
      cases (Token.expandAliases aliases tokens).mapError LineError.lexical with
      | error e => rfl
      | ok expanded =>
          simp only
          -- up to here the environment has not been looked at
          rcases map_eq_map_cases (Token.expandVariablesList_blank env env' expanded) with
            ⟨e, hLeft, hRight⟩ | ⟨ts, us, hLeft, hRight, hBlank⟩
          · rw [hLeft, hRight]
          · rw [hLeft, hRight]
            have hBuild : (Tree.build ts).map (List.map Tree.blank) =
                (Tree.build us).map (List.map Tree.blank) := by
              rw [← Tree.build_blank, ← Tree.build_blank, hBlank]
            simp only
            rcases map_eq_map_cases hBuild with ⟨e, hTs, hUs⟩ | ⟨trees, trees', hTs, hUs, hEq⟩
            · rw [hTs, hUs]
            · rw [hTs, hUs]
              exact congrArg Except.ok hEq

/--
**Values cannot change the structure of a line.** Whatever variables and whatever
last status a session is given instead of its own, a line is refused with the same
error, or it is read as as many trees, each of the shape it had.
-/
theorem parse_sameReading {σ : Type} (s : Session σ) (env : Table String String) (status : Int)
    (line : String) :
    SameReading (s.parse line) (({ s with env := env, lastStatus := status }).parse line) := by
  have hBlank := parseWith_blank s.aliases s.expansionEnv
    (({ s with env := env, lastStatus := status }).expansionEnv) line
  rcases map_eq_map_cases hBlank with ⟨e, hLeft, hRight⟩ | ⟨ts, us, hLeft, hRight, hEq⟩
  · unfold Session.parse
    rw [hLeft, hRight]
    exact .error e
  · unfold Session.parse
    rw [hLeft, hRight]
    exact .ok (forall₂_of_map_eq (fun _ _ => Tree.sameShape_of_blank_eq) hEq)

end MemShell
