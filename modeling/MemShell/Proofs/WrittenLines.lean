import Mathlib.Data.List.Forall2
import MemShell.Session

/-!
# Writing trees as lines

Every text can be put into a line so that the shell takes it as it is: between
double quotes with its backslashes and double quotes escaped, or, where a `$`
would be read as a reference, between single quotes. Only a text that has both
a `$` and a single quote fits into neither. With texts written that way a
command tree has a written form, and this module shows that reading undoes
writing.

Reading has four stages, and a written line passes each of them for a reason of
its own:

* the scanner is between tokens before and after every written piece, so pieces
  can be put side by side (`Spells`);
* a quoted token is never the name of an alias (`expandLive_of_quoted`);
* double quotes are used only where no `$` occurs, single quotes keep a `$` as it
  is (`expandVariablesList_of_inert`);
* the reader of trees, having read the tokens of a tree, holds exactly that tree
  (`feed_tokens`).

None of the reasons looks at the aliases or the variables, so the result holds
in every session.

## Main results

* `spells_ofTrees` — the tokens of a written line.
* `build_tokensOfTrees` — the trees of those tokens.
* `parse_ofTrees` — a session reads back the trees that were written.
-/

namespace MemShell

/-! ## Writing a text -/

namespace Written

open Token

def escapeChar (c : Char) : List Char :=
  if c = '\\' ∨ c = '"' then ['\\', c] else [c]

/-- A text as it is written between double quotes. -/
def escape (cs : List Char) : List Char :=
  cs.flatMap escapeChar

/-- Texts that can be written: without a `$`, or without a single quote. -/
def Quotable (s : String) : Prop :=
  '$' ∉ s.toList ∨ '\'' ∉ s.toList

instance (s : String) : Decidable (Quotable s) :=
  inferInstanceAs (Decidable (_ ∨ _))

/-- A text between quotes: double ones, unless it has a `$`. -/
def quote (s : String) : String :=
  if '$' ∈ s.toList then String.ofList ('\'' :: s.toList ++ ['\''])
  else String.ofList ('"' :: escape s.toList ++ ['"'])

/-- The token that a written text is. -/
def textToken (s : String) : Token :=
  if '$' ∈ s.toList then ⟨.singleQuoted, s⟩ else ⟨.doubleQuoted, s⟩

/-! ## Writing trees -/

def ofRedirect (r : Redirect) : String :=
  r.kind.operator ++ " " ++ quote r.file

/-- A command: its name, its arguments and its redirections. -/
def ofSimple (c : Simple) : String :=
  " ".intercalate (quote c.command :: c.args.map quote ++ c.redirects.map ofRedirect)

def ofConnective : Connective → String
  | .and => " && "
  | .or => " || "

def ofTree : Tree → String
  | .simple c => ofSimple c
  | .pipeline stages => " | ".intercalate (stages.map ofSimple)
  | .logical left connective right => ofTree left ++ ofConnective connective ++ ofTree right

def ofTrees (trees : List Tree) : String :=
  " ; ".intercalate (trees.map ofTree)

/-- The texts of a command: its name, its arguments and its files. -/
def texts (c : Simple) : List String :=
  c.command :: c.args ++ c.redirects.map Redirect.file

/-- Trees whose texts can all be written. -/
def QuotableTree (t : Tree) : Prop :=
  ∀ c ∈ t.simples, ∀ s ∈ texts c, Quotable s

instance (t : Tree) : Decidable (QuotableTree t) :=
  inferInstanceAs (Decidable (∀ c ∈ t.simples, ∀ s ∈ texts c, Quotable s))

def isLogical : Tree → Bool
  | .logical .. => true
  | _ => false

/-- Trees as a line can ask for them: a pipeline has at least two stages, and a
chain leans to the left. -/
def Canonical : Tree → Prop
  | .simple _ => True
  | .pipeline stages => 2 ≤ stages.length
  | .logical left _ right => Canonical left ∧ Canonical right ∧ isLogical right = false

instance decidableCanonical : (t : Tree) → Decidable (Canonical t)
  | .simple _ => .isTrue trivial
  | .pipeline stages => inferInstanceAs (Decidable (2 ≤ stages.length))
  | .logical left _ right =>
      have := decidableCanonical left
      have := decidableCanonical right
      inferInstanceAs (Decidable (_ ∧ _ ∧ _))

/-! ## The tokens of a written line -/

def redirectToken : RedirectKind → Token
  | .write => ⟨.redirect, ">"⟩
  | .append => ⟨.append, ">>"⟩

def connectiveToken : Connective → Token
  | .and => ⟨.and, "&&"⟩
  | .or => ⟨.or, "||"⟩

def redirectTokens (r : Redirect) : List Token :=
  [redirectToken r.kind, textToken r.file]

def simpleTokens (c : Simple) : List Token :=
  textToken c.command :: c.args.map textToken ++ c.redirects.flatMap redirectTokens

def treeTokens : Tree → List Token
  | .simple c => simpleTokens c
  | .pipeline stages => [⟨.pipe, "|"⟩].intercalate (stages.map simpleTokens)
  | .logical left connective right =>
      treeTokens left ++ [connectiveToken connective] ++ treeTokens right

def tokensOfTrees (trees : List Tree) : List Token :=
  [⟨.semicolon, ";"⟩].intercalate (trees.map treeTokens)

/-! ## Scanning a written line -/

/-- The scanner reads the text from between tokens to between tokens and gives
out these tokens. -/
def Spells (text : String) (ts : List Token) : Prop :=
  Scan.scanner.feed .idle text.toList = .ok (ts, .idle)

theorem Spells.append {text text' : String} {ts ts' : List Token} (h : Spells text ts)
    (h' : Spells text' ts') : Spells (text ++ text') (ts ++ ts') := by
  unfold Spells
  rw [String.toList_append]
  exact Transducer.feed_append_of_ok h h'

theorem Spells.intercalate {mark : String} {ms : List Token} (hMark : Spells mark ms)
    {pieces : List String} {tss : List (List Token)} (h : List.Forall₂ Spells pieces tss) :
    Spells (mark.intercalate pieces) (ms.intercalate tss) := by
  induction h with
  | nil => rfl
  | @cons piece ts pieces tss hHead hTail ih =>
      cases hTail with
      | nil =>
          rw [String.intercalate_singleton, List.intercalate_singleton]
          exact hHead
      | cons _ _ =>
          rw [String.intercalate_cons_cons, List.intercalate_cons_cons]
          exact (hHead.append hMark).append ih

private theorem forall₂_spells {α : Type} {f : α → String} {g : α → List Token} {xs : List α}
    (h : ∀ x ∈ xs, Spells (f x) (g x)) : List.Forall₂ Spells (xs.map f) (xs.map g) := by
  rw [List.forall₂_map_left_iff, List.forall₂_map_right_iff, List.forall₂_same]
  exact h

theorem Spells.tokenize {text : String} {ts : List Token} (h : Spells text ts) :
    tokenize text = .ok ts := by
  show Scan.scanner.run .idle text.toList = .ok ts
  rw [Transducer.run_of_feed h]
  show Except.ok (ts ++ []) = _
  rw [List.append_nil]

/-- Between single quotes everything but a single quote is taken as it is. -/
private theorem feed_single {cs : List Char} (h : '\'' ∉ cs) (read : List Char) :
    Scan.scanner.feed (.quoted false .single read) cs =
      .ok ([], .quoted false .single (cs.reverse ++ read)) := by
  induction cs generalizing read with
  | nil => rfl
  | cons c cs ih =>
      have hHead : c ≠ '\'' := fun hEq => h (by simp [hEq])
      have hTail : '\'' ∉ cs := fun hMem => h (by simp [hMem])
      have hStep : Scan.scanner.step (.quoted false .single read) c =
          .ok ([], .quoted false .single (c :: read)) := by
        simp [Scan.scanner, Scan.step, Scan.Quote.mark, hHead]
      simp [Transducer.feed, hStep, ih hTail]

private theorem feed_escapeChar (c : Char) (read : List Char) :
    Scan.scanner.feed (.quoted false .double read) (escapeChar c) =
      .ok ([], .quoted false .double (c :: read)) := by
  by_cases hBackslash : c = '\\'
  · subst hBackslash
    rfl
  · by_cases hMark : c = '"'
    · subst hMark
      rfl
    · simp [escapeChar, Transducer.feed, Scan.scanner, Scan.step, Scan.Quote.mark, hBackslash,
        hMark]

/-- Between double quotes an escaped text is taken as what it was. -/
private theorem feed_escape (cs read : List Char) :
    Scan.scanner.feed (.quoted false .double read) (escape cs) =
      .ok ([], .quoted false .double (cs.reverse ++ read)) := by
  induction cs generalizing read with
  | nil => rfl
  | cons c cs ih =>
      have hFeed := Transducer.feed_append_of_ok (feed_escapeChar c read) (ih (c :: read))
      simpa [escape] using hFeed

theorem spells_quote {s : String} (h : Quotable s) : Spells (quote s) [textToken s] := by
  unfold Spells quote textToken
  by_cases hDollar : '$' ∈ s.toList
  · have hPlain : '\'' ∉ s.toList := h.resolve_left fun hNot => hNot hDollar
    have hOpen : Scan.scanner.feed .idle ['\''] = .ok ([], .quoted false .single []) := rfl
    have hClose : Scan.scanner.feed (.quoted false .single (s.toList.reverse ++ [])) ['\''] =
        .ok ([⟨.singleQuoted, s⟩], .idle) := by
      simp [Transducer.feed, Scan.scanner, Scan.step, Scan.Quote.mark, Scan.Quote.kind]
    have hFeed := Transducer.feed_append_of_ok hOpen
      (Transducer.feed_append_of_ok (feed_single hPlain []) hClose)
    simpa [hDollar] using hFeed
  · have hOpen : Scan.scanner.feed .idle ['"'] = .ok ([], .quoted false .double []) := rfl
    have hClose : Scan.scanner.feed (.quoted false .double (s.toList.reverse ++ [])) ['"'] =
        .ok ([⟨.doubleQuoted, s⟩], .idle) := by
      simp [Transducer.feed, Scan.scanner, Scan.step, Scan.Quote.mark, Scan.Quote.kind]
    have hFeed := Transducer.feed_append_of_ok hOpen
      (Transducer.feed_append_of_ok (feed_escape s.toList []) hClose)
    simpa [hDollar] using hFeed

private theorem spells_ofRedirect {r : Redirect} (h : Quotable r.file) :
    Spells (ofRedirect r) (redirectTokens r) := by
  have hOperator : Spells (r.kind.operator ++ " ") [redirectToken r.kind] := by
    cases r.kind <;> rfl
  exact hOperator.append (spells_quote h)

private theorem intercalate_nil_mark (tss : List (List Token)) :
    ([] : List Token).intercalate tss = tss.flatten := by
  induction tss with
  | nil => rfl
  | cons ts tss ih =>
      cases tss with
      | nil => simp
      | cons us tss =>
          rw [List.intercalate_cons_cons, ih]
          simp

theorem spells_ofSimple {c : Simple} (h : ∀ s ∈ texts c, Quotable s) :
    Spells (ofSimple c) (simpleTokens c) := by
  have hArgs : List.Forall₂ Spells (c.args.map quote) (c.args.map fun a => [textToken a]) := by
    apply forall₂_spells
    intro a ha
    exact spells_quote (h a (by simp [texts, ha]))
  have hRedirects :
      List.Forall₂ Spells (c.redirects.map ofRedirect) (c.redirects.map redirectTokens) := by
    apply forall₂_spells
    intro r hr
    exact spells_ofRedirect (h r.file (List.mem_append_right _ (List.mem_map_of_mem hr)))
  have hCommand := spells_quote (h c.command (by simp [texts]))
  have hPieces := List.Forall₂.cons hCommand (List.rel_append hArgs hRedirects)
  have hBlank : Spells " " [] := rfl
  have hTokens : ([] : List Token).intercalate ([textToken c.command] ::
      (c.args.map (fun a => [textToken a]) ++ c.redirects.map redirectTokens)) =
      simpleTokens c := by
    have hFlat : (c.args.map fun a => [textToken a]).flatten = c.args.map textToken := by
      rw [← List.flatMap_def, ← List.map_eq_flatMap]
    rw [intercalate_nil_mark]
    simp [simpleTokens, hFlat, List.flatMap_def]
  rw [← hTokens]
  exact hBlank.intercalate hPieces

theorem spells_ofTree {t : Tree} (h : QuotableTree t) : Spells (ofTree t) (treeTokens t) := by
  induction t with
  | simple c => exact spells_ofSimple (h c (by simp [Tree.simples]))
  | pipeline stages =>
      have hStages :
          List.Forall₂ Spells (stages.map ofSimple) (stages.map simpleTokens) := by
        apply forall₂_spells
        intro c hc
        exact spells_ofSimple (h c hc)
      have hPipe : Spells " | " [⟨.pipe, "|"⟩] := rfl
      exact hPipe.intercalate hStages
  | logical left connective right ihLeft ihRight =>
      have hConnective : Spells (ofConnective connective) [connectiveToken connective] := by
        cases connective <;> rfl
      have hLeft := ihLeft fun c hc => h c (List.mem_append_left _ hc)
      have hRight := ihRight fun c hc => h c (List.mem_append_right _ hc)
      exact (hLeft.append hConnective).append hRight

/-- **The tokens of a written line** are those of its trees. -/
theorem spells_ofTrees {trees : List Tree} (h : ∀ t ∈ trees, QuotableTree t) :
    Spells (ofTrees trees) (tokensOfTrees trees) := by
  have hTrees : List.Forall₂ Spells (trees.map ofTree) (trees.map treeTokens) := by
    apply forall₂_spells
    intro t ht
    exact spells_ofTree (h t ht)
  have hSemicolon : Spells " ; " [⟨.semicolon, ";"⟩] := rfl
  exact hSemicolon.intercalate hTrees

/-! ## Aliases and variables -/

/-- Only a plain word can name an alias. -/
theorem expandLive_of_quoted {ts : List Token} (h : ∀ t ∈ ts, t.kind ≠ .word)
    (live : Table String String) (p : Position) : expandLive live p ts = .ok ts := by
  induction ts generalizing p with
  | nil => exact expandLive_nil live p
  | cons t ts ih =>
      have hHead : p = .command → t.kind = .word → live.get? t.value = none :=
        fun _ hWord => absurd hWord (h t (by simp))
      have hTail := ih (fun u hu => h u (by simp [hu])) (p.next t)
      rw [expandLive_cons_keep hHead, hTail]
      rfl

theorem run_literals {cs : List Char} (h : '$' ∉ cs) :
    Piece.reader.run .text cs = .ok (cs.map Piece.literal) := by
  induction cs with
  | nil => rfl
  | cons c cs ih =>
      have hHead : c ≠ '$' := fun hEq => h (by simp [hEq])
      have hTail : '$' ∉ cs := fun hMem => h (by simp [hMem])
      have hStep : Piece.reader.step .text c = .ok ([.literal c], .text) := by
        simp [Piece.reader, Piece.step, Piece.start, hHead]
      rw [Transducer.run_cons_of_step hStep, ih hTail]
      rfl

/-- A text without a `$` stands for itself. -/
theorem expandText_of_no_dollar {text : String} (h : '$' ∉ text.toList)
    (env : Table String String) : expandText env text = .ok text := by
  have hValue : (Piece.value env ∘ Piece.literal) = fun c => String.ofList [c] := rfl
  have hJoin : String.join (text.toList.map fun c => String.ofList [c]) = text := by
    apply String.toList_injective
    simp [String.toList_join, List.flatMap_map]
  unfold expandText Piece.ofText
  rw [run_literals h]
  show Except.ok (String.join _) = _
  rw [List.map_map, hValue, hJoin]

/-- Tokens that filling in references leaves alone. -/
def Inert (t : Token) : Prop :=
  t.kind = .word ∨ t.kind = .doubleQuoted → '$' ∉ t.value.toList

theorem expandVariables_of_inert {t : Token} (h : Inert t) (env : Table String String) :
    t.expandVariables env = .ok t := by
  obtain ⟨kind, value⟩ := t
  cases kind with
  | word =>
      show (expandText env value).map _ = _
      rw [expandText_of_no_dollar (h (.inl rfl))]
      rfl
  | doubleQuoted =>
      show (expandText env value).map _ = _
      rw [expandText_of_no_dollar (h (.inr rfl))]
      rfl
  | _ => rfl

theorem expandVariablesList_of_inert {ts : List Token} (h : ∀ t ∈ ts, Inert t)
    (env : Table String String) : expandVariablesList env ts = .ok ts := by
  induction ts with
  | nil => rfl
  | cons t ts ih =>
      have hHead := expandVariables_of_inert (h t (by simp)) env
      have hTail := ih fun u hu => h u (by simp [hu])
      unfold expandVariablesList at hTail ⊢
      rw [List.mapM_cons, hHead, hTail]
      rfl

/-- Tokens that neither kind of expansion touches. -/
def Settled (t : Token) : Prop :=
  t.kind ≠ .word ∧ Inert t

private theorem settled_textToken (s : String) : Settled (textToken s) := by
  unfold textToken
  by_cases hDollar : '$' ∈ s.toList
  · simp [Settled, Inert, hDollar]
  · simp [Settled, Inert, hDollar]

private theorem settled_intercalate {mark : List Token} {tss : List (List Token)}
    (hMark : ∀ t ∈ mark, Settled t) (h : ∀ ts ∈ tss, ∀ t ∈ ts, Settled t) :
    ∀ t ∈ mark.intercalate tss, Settled t := by
  induction tss with
  | nil =>
      intro t ht
      exact absurd ht List.not_mem_nil
  | cons ts tss ih =>
      have hHead : ∀ t ∈ ts, Settled t := h ts (by simp)
      have hTail := ih fun us hus => h us (by simp [hus])
      cases tss with
      | nil =>
          rw [List.intercalate_singleton]
          exact hHead
      | cons us tss =>
          intro t ht
          rw [List.intercalate_cons_cons, List.mem_append, List.mem_append] at ht
          rcases ht with (ht | ht) | ht
          · exact hHead t ht
          · exact hMark t ht
          · exact hTail t ht

private theorem settled_simpleTokens (c : Simple) : ∀ t ∈ simpleTokens c, Settled t := by
  intro t ht
  rw [simpleTokens, List.mem_append, List.mem_cons, List.mem_map, List.mem_flatMap] at ht
  rcases ht with (rfl | ⟨a, -, rfl⟩) | ⟨r, -, ht⟩
  · exact settled_textToken c.command
  · exact settled_textToken a
  · rw [redirectTokens, List.mem_pair] at ht
    rcases ht with rfl | rfl
    · cases r.kind <;> simp [redirectToken, Settled, Inert]
    · exact settled_textToken r.file

private theorem settled_treeTokens (t : Tree) : ∀ u ∈ treeTokens t, Settled u := by
  induction t with
  | simple c => exact settled_simpleTokens c
  | pipeline stages =>
      apply settled_intercalate
      · simp [Settled, Inert]
      · intro ts hts
        obtain ⟨c, -, rfl⟩ := List.mem_map.mp hts
        exact settled_simpleTokens c
  | logical left connective right ihLeft ihRight =>
      intro u hu
      rw [treeTokens, List.mem_append, List.mem_append, List.mem_singleton] at hu
      rcases hu with (hu | rfl) | hu
      · exact ihLeft u hu
      · cases connective <;> simp [connectiveToken, Settled, Inert]
      · exact ihRight u hu

theorem settled_tokensOfTrees (trees : List Tree) : ∀ t ∈ tokensOfTrees trees, Settled t := by
  apply settled_intercalate
  · simp [Settled, Inert]
  · intro ts hts
    obtain ⟨t, -, rfl⟩ := List.mem_map.mp hts
    exact settled_treeTokens t

/-! ## Building the trees -/

section Build

open Tree.Parse

private theorem isText_textToken (s : String) : (textToken s).kind.isText = true := by
  unfold textToken
  split <;> rfl

private theorem value_textToken (s : String) : (textToken s).value = s := by
  unfold textToken
  split <;> rfl

private theorem feed_args (o : Outer) (command : String) (redirects : List Redirect)
    (as args : List String) :
    reader.feed (.rest o command args redirects) (as.map textToken) =
      .ok ([], .rest o command (as.reverse ++ args) redirects) := by
  have hTexts : ∀ t ∈ as.map textToken, t.kind.isText = true := by
    intro t hMem
    obtain ⟨a, -, rfl⟩ := List.mem_map.mp hMem
    exact isText_textToken a
  have hValues : (as.map textToken).map Token.value = as := by
    simp [Function.comp_def, value_textToken]
  rw [feed_rest_texts hTexts, hValues]

private theorem feed_redirect (o : Outer) (command : String) (args : List String)
    (redirects : List Redirect) (r : Redirect) :
    reader.feed (.rest o command args redirects) (redirectTokens r) =
      .ok ([], .rest o command args (r :: redirects)) := by
  obtain ⟨kind, file⟩ := r
  have hFile : ∀ k, reader.step (.file o command args redirects k) (textToken file) =
      .ok ([], .rest o command args (⟨k, file⟩ :: redirects)) := by
    intro k
    show (if (textToken file).kind.isText then _ else _) = _
    rw [if_pos (isText_textToken file), value_textToken]
  cases kind with
  | write =>
      have hOperator : reader.step (.rest o command args redirects) ⟨.redirect, ">"⟩ =
          .ok ([], .file o command args redirects .write) := rfl
      simp [redirectTokens, redirectToken, Transducer.feed, hOperator, hFile]
  | append =>
      have hOperator : reader.step (.rest o command args redirects) ⟨.append, ">>"⟩ =
          .ok ([], .file o command args redirects .append) := rfl
      simp [redirectTokens, redirectToken, Transducer.feed, hOperator, hFile]

private theorem feed_redirects (o : Outer) (command : String) (args : List String)
    (rs : List Redirect) : ∀ redirects : List Redirect,
    reader.feed (.rest o command args redirects) (rs.flatMap redirectTokens) =
      .ok ([], .rest o command args (rs.reverse ++ redirects)) := by
  induction rs with
  | nil => intro redirects; rfl
  | cons r rs ih =>
      intro redirects
      have hFeed := Transducer.feed_append_of_ok (feed_redirect o command args redirects r)
        (ih (r :: redirects))
      simpa using hFeed

theorem ofRead_reverse (c : Simple) :
    ofRead c.command c.args.reverse c.redirects.reverse = c := by
  simp [ofRead]

/-- Where a command name must come, the tokens of a command are read as it. -/
private theorem feed_simpleTokens (o : Outer) (c : Simple) :
    reader.feed (.name o) (simpleTokens c) =
      .ok ([], .rest o c.command c.args.reverse c.redirects.reverse) := by
  have hName : reader.feed (.name o) [textToken c.command] =
      .ok ([], .rest o c.command [] []) := by
    have hStep : reader.step (.name o) (textToken c.command) =
        .ok ([], .rest o c.command [] []) := by
      show readName o (textToken c.command) = _
      rw [readName, if_pos (isText_textToken _), value_textToken]
    simp [Transducer.feed, hStep]
  have hFeed := Transducer.feed_append_of_ok
    (Transducer.feed_append_of_ok hName (feed_args o c.command [] c.args []))
    (feed_redirects o c.command (c.args.reverse ++ []) c.redirects [])
  simpa [simpleTokens] using hFeed

/-- The reader has read a command that completes this tree. -/
def Completes (m : Mode) (t : Tree) : Prop :=
  ∃ o command args redirects,
    m = .rest o command args redirects ∧ o.close (ofRead command args redirects) = t

/-- The tree of the stages read so far, behind what waits for it. -/
def attach (chain : Option (Tree × Connective)) (t : Tree) : Tree :=
  match chain with
  | none => t
  | some (left, connective) => .logical left connective t

private theorem completes_rest (chain : Option (Tree × Connective)) (before : List Simple)
    (c : Simple) :
    Completes (.rest ⟨chain, before⟩ c.command c.args.reverse c.redirects.reverse)
      (attach chain (Tree.ofStages (c :: before).reverse)) := by
  refine ⟨_, _, _, _, rfl, ?_⟩
  rw [ofRead_reverse]
  cases chain <;> rfl

/-- Stages are collected; the last one completes the pipeline. -/
private theorem feed_stages (chain : Option (Tree × Connective)) (rest : List Simple) :
    ∀ (before : List Simple) (stage : Simple),
      ∃ m, reader.feed (.name ⟨chain, before⟩)
          ([⟨.pipe, "|"⟩].intercalate ((stage :: rest).map simpleTokens)) = .ok ([], m) ∧
        Completes m (attach chain (Tree.ofStages (before.reverse ++ stage :: rest))) := by
  induction rest with
  | nil =>
      intro before stage
      rw [List.map_singleton, List.intercalate_singleton]
      refine ⟨_, feed_simpleTokens ⟨chain, before⟩ stage, ?_⟩
      simpa using completes_rest chain before stage
  | cons next rest ih =>
      intro before stage
      obtain ⟨m, hRest, hDone⟩ := ih (stage :: before) next
      have hPipe : reader.feed
          (.rest ⟨chain, before⟩ stage.command stage.args.reverse stage.redirects.reverse)
          [⟨.pipe, "|"⟩] = .ok ([], .name ⟨chain, stage :: before⟩) := by
        show Except.ok ([], Mode.name ⟨chain, ofRead _ _ _ :: before⟩) = _
        rw [ofRead_reverse]
      refine ⟨m, ?_, by simpa using hDone⟩
      have hFeed := Transducer.feed_append_of_ok
        (Transducer.feed_append_of_ok (feed_simpleTokens ⟨chain, before⟩ stage) hPipe) hRest
      simpa [List.intercalate_cons_cons] using hFeed

private theorem feed_operand (chain : Option (Tree × Connective)) {t : Tree}
    (hCanonical : Canonical t) (hOperand : isLogical t = false) :
    ∃ m, reader.feed (.name ⟨chain, []⟩) (treeTokens t) = .ok ([], m) ∧
      Completes m (attach chain t) := by
  cases t with
  | simple c => exact ⟨_, feed_simpleTokens ⟨chain, []⟩ c, completes_rest chain [] c⟩
  | pipeline stages =>
      match stages, hCanonical with
      | first :: second :: rest, _ => exact feed_stages chain (second :: rest) [] first
  | logical left connective right => exact absurd hOperand (by simp [isLogical])

/-- **Reading the tokens of a tree** leaves the reader with that tree. -/
theorem feed_tokens {t : Tree} (h : Canonical t) :
    ∃ m, reader.feed (.name .empty) (treeTokens t) = .ok ([], m) ∧ Completes m t := by
  induction t with
  | simple c => exact feed_operand none h rfl
  | pipeline stages => exact feed_operand none h rfl
  | logical left connective right ihLeft _ =>
      obtain ⟨hLeft, hRight, hOperand⟩ := h
      obtain ⟨m, hFeedLeft, o, command, args, redirects, rfl, hClose⟩ := ihLeft hLeft
      have hConnective : reader.feed (.rest o command args redirects)
          [connectiveToken connective] = .ok ([], .name ⟨some (left, connective), []⟩) := by
        rw [← hClose]
        cases connective <;> rfl
      obtain ⟨m', hFeedRight, hDone⟩ := feed_operand (some (left, connective)) hRight hOperand
      refine ⟨m', ?_, hDone⟩
      exact Transducer.feed_append_of_ok
        (Transducer.feed_append_of_ok hFeedLeft hConnective) hFeedRight

/-- At the start of a line a command name may come, and nothing else. -/
theorem feed_fresh {ts : List Token} (h : ts ≠ []) :
    reader.feed .fresh ts = reader.feed (.name .empty) ts := by
  cases ts with
  | nil => exact absurd rfl h
  | cons t ts => rfl

private theorem simpleTokens_ne_nil (c : Simple) : simpleTokens c ≠ [] := by
  simp [simpleTokens]

private theorem treeTokens_ne_nil {t : Tree} (h : Canonical t) : treeTokens t ≠ [] := by
  induction t with
  | simple c => exact simpleTokens_ne_nil c
  | pipeline stages =>
      match stages, h with
      | first :: second :: rest, _ => simp [treeTokens, List.intercalate_cons_cons]
  | logical left connective right _ _ => simp [treeTokens]

/-- **The trees of the tokens of trees** are those trees. -/
theorem build_tokensOfTrees {trees : List Tree} (h : ∀ t ∈ trees, Canonical t) :
    Tree.build (tokensOfTrees trees) = .ok trees := by
  induction trees with
  | nil => rfl
  | cons t trees ih =>
      have hHead : Canonical t := h t (by simp)
      obtain ⟨m, hFeed, o, command, args, redirects, rfl, hClose⟩ := feed_tokens hHead
      rw [← feed_fresh (treeTokens_ne_nil hHead)] at hFeed
      cases trees with
      | nil =>
          show reader.run .fresh ([⟨.semicolon, ";"⟩].intercalate [treeTokens t]) = _
          rw [List.intercalate_singleton, Transducer.run_of_feed hFeed, ← hClose]
          rfl
      | cons u trees =>
          have hTail := ih fun v hv => h v (by simp [hv])
          have hSemicolon : reader.feed (.rest o command args redirects) [⟨.semicolon, ";"⟩] =
              .ok ([t], .fresh) := by
            rw [← hClose]
            rfl
          have hBoth := Transducer.feed_append_of_ok hFeed hSemicolon
          show reader.run .fresh ([⟨.semicolon, ";"⟩].intercalate
            (treeTokens t :: treeTokens u :: trees.map treeTokens)) = _
          rw [List.intercalate_cons_cons, Transducer.run_append_of_feed hBoth]
          show (Tree.build (tokensOfTrees (u :: trees))).map _ = _
          rw [hTail]
          rfl

end Build

/-! ## A whole line -/

/--
**Writing and reading.** Trees of the form that lines ask for, with texts that
can be written, are read back from the line they are written as, whatever the
aliases, the variables and the last status of the session are.
-/
theorem parse_ofTrees {σ : Type} (s : Session σ) {trees : List Tree}
    (hCanonical : ∀ t ∈ trees, Canonical t) (hQuotable : ∀ t ∈ trees, QuotableTree t) :
    s.parse (ofTrees trees) = .ok trees := by
  have hTokens : tokenize (ofTrees trees) = .ok (tokensOfTrees trees) :=
    (spells_ofTrees hQuotable).tokenize
  have hAliases : expandAliases s.aliases (tokensOfTrees trees) = .ok (tokensOfTrees trees) :=
    expandLive_of_quoted (fun t ht => (settled_tokensOfTrees trees t ht).1) s.aliases .command
  have hVariables : expandVariablesList s.expansionEnv (tokensOfTrees trees) =
      .ok (tokensOfTrees trees) :=
    expandVariablesList_of_inert (fun t ht => (settled_tokensOfTrees trees t ht).2) _
  unfold Session.parse Session.parseWith
  rw [hTokens]
  simp only [Except.mapError, bind, Except.bind]
  rw [hAliases]
  simp only
  rw [hVariables]
  simp only
  rw [build_tokensOfTrees hCanonical]

/-- A chain over a pipeline and a command of its own, with blanks, operators,
quotes, backslashes and references in their texts. -/
def nestedTrees : List Tree :=
  [.logical
      (.pipeline [⟨"echo", ["$HOME \\", "say \"hi\" \\"], []⟩,
        ⟨"", ["it's"], [⟨.append, "out;"⟩]⟩])
      .and (.simple ⟨"cat", [], [⟨.write, "<$in"⟩, ⟨.write, "&"⟩]⟩),
    .simple ⟨"|", [], []⟩]

/-- The aliases and variables here would change every plain word of the line. -/
theorem parse_ofTrees_nested :
    (∀ t ∈ nestedTrees, Canonical t) ∧ (∀ t ∈ nestedTrees, QuotableTree t) ∧
      ofTrees nestedTrees =
        "\"echo\" '$HOME \\' \"say \\\"hi\\\" \\\\\" | \"\" \"it's\" >> \"out;\" && " ++
          "\"cat\" > '<$in' > \"&\" ; \"|\"" ∧
      (Session.start (.ofList [("HOME", "a b"), ("in", "x")])
        (.ofList [("echo", "rm &"), ("cat", "\"")]) ()).parse (ofTrees nestedTrees) =
        .ok nestedTrees :=
  ⟨by decide, by decide, by decide, parse_ofTrees _ (by decide) (by decide)⟩

end Written

end MemShell
