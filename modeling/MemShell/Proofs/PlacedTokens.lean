import MemShell.Tree.Parse

/-!
# Which tokens form commands

The reader of trees refuses tokens at many points and in many states. Which lists it
refuses can nevertheless be said by looking at neighbours only. A *place* is the gap
between two tokens, or one of the two ends. What stands before a place may ask for a
text after it: a pipe, a connective and a redirection do, and so do the start of the
line and a semicolon unless the line ends there. A place is *misplaced* if it is asked
for a text and there is none (`Misplaced`).

That this is all follows from one fact about the reader's state: of what was read, only
the last token matters for what may come (`Mode.IsAfter`). A step is refused exactly at
a misplaced place, with the message for it, and else leads to a state after its token
(`step_placed`). A line is therefore read up to its leftmost misplaced place, and as a
whole if there is none (`run_placed`).

## Main results

* `step_placed`, `finish_placed` — what is refused at one place.
* `wellPlaced_iff` — a list without a misplaced place, told operator by operator.
* `run_placed` — a line is read up to its leftmost misplaced place.
* `exists_run_iff`, `message_run_iff` — which lists are read, and what is said of the others.
-/

namespace MemShell.Token

/-! ## Places -/

/-- What stands before a place asks for a text, and there is none. -/
def Misplaced (before here : Option Token) : Prop :=
  match before.map kind with
  | none | some .semicolon => ∃ t ∈ here, t.kind.isText = false
  | some .pipe | some .and | some .or | some .redirect | some .append =>
      ∀ t ∈ here, t.kind.isText = false
  | some .word | some .doubleQuoted | some .singleQuoted => False

/-- What is said of a misplaced place. -/
def complaint (before here : Option Token) : String :=
  if before.any (·.kind.isRedirection) then "expected filename for redirection"
  else "expected command name but got " ++ here.elim "end of input" (·.kind.name)

/-- The list starts with a text, unless it is empty, and every operator is followed by
one, unless it is a semicolon at the end. -/
structure WellPlaced (ts : List Token) : Prop where
  first : ts = [] ∨ ∃ t, ts.head? = some t ∧ t.kind.isText = true
  /-- After a pipe or a connective comes a text. -/
  command : ∀ front op rest, ts = front ++ op :: rest →
    op.kind = .pipe ∨ op.kind = .and ∨ op.kind = .or →
    ∃ t, rest.head? = some t ∧ t.kind.isText = true
  /-- After a redirection comes a text. -/
  file : ∀ front op rest, ts = front ++ op :: rest →
    op.kind = .redirect ∨ op.kind = .append →
    ∃ t, rest.head? = some t ∧ t.kind.isText = true
  /-- After a semicolon comes a text or the end. -/
  next : ∀ front op rest, ts = front ++ op :: rest → op.kind = .semicolon →
    rest = [] ∨ ∃ t, rest.head? = some t ∧ t.kind.isText = true

section Places

variable {rest : List Token}

private theorem exists_text_iff :
    (∃ t, rest.head? = some t ∧ t.kind.isText = true) ↔
      ¬ ∀ t ∈ rest.head?, t.kind.isText = false := by
  cases rest with
  | nil => simp
  | cons t rest => simp

private theorem nil_or_exists_text_iff :
    (rest = [] ∨ ∃ t, rest.head? = some t ∧ t.kind.isText = true) ↔
      ¬ ∃ t ∈ rest.head?, t.kind.isText = false := by
  cases rest with
  | nil => simp
  | cons t rest => simp

end Places

/-- A list is well placed if none of its places is misplaced. -/
theorem wellPlaced_iff (ts : List Token) :
    WellPlaced ts ↔ ∀ front rest, ts = front ++ rest → ¬ Misplaced front.getLast? rest.head? := by
  constructor
  · intro h front rest hSplit
    rcases List.eq_nil_or_concat front with rfl | ⟨init, op, rfl⟩
    · have hFirst := nil_or_exists_text_iff.mp h.first
      rw [hSplit] at hFirst
      exact hFirst
    · have hHere : ts = init ++ op :: rest := by simpa using hSplit
      unfold Misplaced
      rw [List.concat_eq_append, List.getLast?_concat]
      cases hKind : op.kind <;> simp only [Option.map_some, hKind, not_false_eq_true]
      case pipe => exact exists_text_iff.mp (h.command init op rest hHere (.inl hKind))
      case and => exact exists_text_iff.mp (h.command init op rest hHere (.inr (.inl hKind)))
      case or => exact exists_text_iff.mp (h.command init op rest hHere (.inr (.inr hKind)))
      case redirect => exact exists_text_iff.mp (h.file init op rest hHere (.inl hKind))
      case append => exact exists_text_iff.mp (h.file init op rest hHere (.inr hKind))
      case semicolon => exact nil_or_exists_text_iff.mp (h.next init op rest hHere hKind)
  · intro h
    have hAfter : ∀ front op rest, ts = front ++ op :: rest →
        ¬ Misplaced (some op) rest.head? := by
      intro front op rest hSplit
      have hPlace := h (front ++ [op]) rest (by simpa using hSplit)
      rwa [List.getLast?_concat] at hPlace
    constructor
    · exact nil_or_exists_text_iff.mpr (h [] ts rfl)
    · intro front op rest hSplit hKind
      have hPlace := hAfter front op rest hSplit
      rcases hKind with hKind | hKind | hKind <;>
        exact exists_text_iff.mpr (by simpa only [Misplaced, Option.map_some, hKind] using hPlace)
    · intro front op rest hSplit hKind
      have hPlace := hAfter front op rest hSplit
      rcases hKind with hKind | hKind <;>
        exact exists_text_iff.mpr (by simpa only [Misplaced, Option.map_some, hKind] using hPlace)
    · intro front op rest hSplit hKind
      have hPlace := hAfter front op rest hSplit
      exact nil_or_exists_text_iff.mpr (by simpa only [Misplaced, Option.map_some, hKind] using hPlace)

end MemShell.Token

namespace MemShell.Tree.Parse

open Token (Misplaced complaint WellPlaced)

/-! ## One place -/

/-- The states that a last token leads to. -/
def Mode.IsAfter (before : Option Token) : Mode → Prop
  | .fresh => ∀ t ∈ before, t.kind = .semicolon
  | .name _ => ∃ t ∈ before, t.kind = .pipe ∨ t.kind = .and ∨ t.kind = .or
  | .rest .. => ∃ t ∈ before, t.kind.isText = true
  | .file .. => ∃ t ∈ before, t.kind.isRedirection = true

/-- What is missing where a state refuses what comes. -/
def Mode.missing (here : Option Token) : Mode → ParseError
  | .file .. => .noFile
  | _ => .noCommand (here.map Token.kind)

section Places

variable {m m' : Mode} {before here : Option Token} {t : Token} {out : List Tree}

/-- A place is misplaced if the command is not complete there and no text comes. Only
where a tree may start the line may end instead. -/
theorem misplaced_iff (hAfter : m.IsAfter before) :
    Misplaced before here ↔
      m.isRest = false ∧ ¬ (m = .fresh ∧ here = none) ∧ ∀ t ∈ here, t.kind.isText = false := by
  cases m with
  | fresh =>
      have hPlace : Misplaced before here ↔ ∃ t ∈ here, t.kind.isText = false := by
        cases before with
        | none => rfl
        | some b => simp only [Misplaced, Option.map_some, hAfter b rfl]
      rw [hPlace]
      cases here <;> simp [Mode.isRest]
  | name o =>
      obtain ⟨b, rfl, hKind⟩ := hAfter
      rcases hKind with hKind | hKind | hKind <;> simp [Misplaced, hKind, Mode.isRest]
  | rest o command args redirects =>
      obtain ⟨b, rfl, hText⟩ := hAfter
      cases hKind : b.kind <;> simp_all [Misplaced, TokenKind.isText, Mode.isRest]
  | file o command args redirects kind =>
      obtain ⟨b, rfl, hText⟩ := hAfter
      cases hKind : b.kind <;> simp_all [Misplaced, TokenKind.isRedirection, Mode.isRest]

theorem message_missing (hAfter : m.IsAfter before) (hRest : m.isRest = false) :
    (m.missing here).message = complaint before here := by
  have hName : (ParseError.noCommand (here.map Token.kind)).message =
      "expected command name but got " ++ here.elim "end of input" (·.kind.name) := by
    cases here <;> rfl
  unfold complaint
  cases m with
  | fresh =>
      have hNone : before.any (·.kind.isRedirection) = false := by
        cases before with
        | none => rfl
        | some b => simp [hAfter b rfl, TokenKind.isRedirection]
      rw [hNone]
      exact hName
  | name o =>
      obtain ⟨b, rfl, hKind⟩ := hAfter
      have hNone : (some b).any (·.kind.isRedirection) = false := by
        rcases hKind with hKind | hKind | hKind <;> simp [hKind, TokenKind.isRedirection]
      rw [hNone]
      exact hName
  | rest o command args redirects => cases hRest
  | file o command args redirects kind =>
      obtain ⟨b, rfl, hKind⟩ := hAfter
      rw [Option.any_some, if_pos hKind]
      rfl

theorem step_of_missing (hRest : m.isRest = false) (hText : t.kind.isText = false) :
    reader.step m t = .error (m.missing (some t)) := by
  cases m with
  | fresh => exact step_name_not_text hText
  | name o => exact step_name_not_text hText
  | rest o command args redirects => cases hRest
  | file o command args redirects kind => exact step_file_not_text hText

/-- What is not refused is read. -/
theorem exists_step (h : m.isRest = true ∨ t.kind.isText = true) :
    ∃ out m', reader.step m t = .ok (out, m') := by
  by_cases hText : t.kind.isText = true
  · cases m with
    | fresh => exact ⟨_, _, step_name_text hText⟩
    | name o => exact ⟨_, _, step_name_text hText⟩
    | rest o command args redirects => exact ⟨_, _, step_rest_text hText⟩
    | file o command args redirects kind => exact ⟨_, _, step_file_text hText⟩
  · have hRest : m.isRest = true := h.resolve_right hText
    cases m with
    | rest o command args redirects =>
        rcases t.kind.isText_or_redirects_or_isBoundary with hT | ⟨kind, hKind⟩ | hBoundary
        · exact absurd hT hText
        · exact ⟨_, _, step_rest_redirection hKind⟩
        · rcases TokenKind.boundary_cases hBoundary with hKind | ⟨c, hKind⟩ | hKind
          · exact ⟨_, _, step_rest_pipe hKind⟩
          · exact ⟨_, _, step_rest_connective hKind⟩
          · exact ⟨_, _, step_rest_semicolon hKind⟩
    | _ => cases hRest

/-- Of what was read, the last token decides what may come. -/
theorem isAfter_step (hStep : reader.step m t = .ok (out, m')) : m'.IsAfter (some t) := by
  cases stepsTo_of_step hStep with
  | first hText | name _ hText | arg _ _ _ _ hText | file _ _ _ _ _ hText => exact ⟨t, rfl, hText⟩
  | redirection _ _ _ _ hKind =>
      refine ⟨t, rfl, ?_⟩
      cases h : t.kind <;> simp_all [TokenKind.redirectKind?, TokenKind.isRedirection]
  | pipe _ _ _ _ hKind => exact ⟨t, rfl, .inl hKind⟩
  | connective _ _ _ _ hKind =>
      refine ⟨t, rfl, .inr ?_⟩
      cases h : t.kind <;> simp_all [TokenKind.connective?]
  | semicolon _ _ _ _ hKind =>
      intro u hu
      obtain rfl := Option.some.inj hu
      exact hKind

/-- **One token** is refused exactly at a misplaced place, and else leads to a state
after it. -/
theorem step_placed (hAfter : m.IsAfter before) (t : Token) :
    (¬ Misplaced before (some t) ∧
        ∃ out m', reader.step m t = .ok (out, m') ∧ m'.IsAfter (some t)) ∨
      (Misplaced before (some t) ∧
        ∃ e, reader.step m t = .error e ∧ e.message = complaint before (some t)) := by
  have hPlace : Misplaced before (some t) ↔ m.isRest = false ∧ t.kind.isText = false := by
    rw [misplaced_iff hAfter]
    simp
  rw [hPlace]
  by_cases hRefused : m.isRest = false ∧ t.kind.isText = false
  · exact .inr ⟨hRefused, _, step_of_missing hRefused.1 hRefused.2,
      message_missing hAfter hRefused.1⟩
  · have hRead : m.isRest = true ∨ t.kind.isText = true := by
      rcases Decidable.not_and_iff_or_not.mp hRefused with hRest | hText
      · exact .inl (by simpa using hRest)
      · exact .inr (by simpa using hText)
    obtain ⟨out, m', hStep⟩ := exists_step hRead
    exact .inl ⟨hRefused, out, m', hStep, isAfter_step hStep⟩

/-- **The end** is refused exactly at a misplaced place. -/
theorem finish_placed (hAfter : m.IsAfter before) :
    (¬ Misplaced before none ∧ ∃ out, reader.finish m = .ok out) ∨
      (Misplaced before none ∧
        ∃ e, reader.finish m = .error e ∧ e.message = complaint before none) := by
  have hPlace : Misplaced before none ↔ m.isRest = false ∧ m ≠ .fresh := by
    rw [misplaced_iff hAfter]
    simp
  rw [hPlace]
  have hMessage : m.isRest = false → (m.missing none).message = complaint before none :=
    message_missing hAfter
  cases m with
  | fresh => exact .inl ⟨by simp, _, rfl⟩
  | rest o command args redirects => exact .inl ⟨by simp [Mode.isRest], _, rfl⟩
  | name o => exact .inr ⟨⟨rfl, by simp⟩, _, rfl, hMessage rfl⟩
  | file o command args redirects kind => exact .inr ⟨⟨rfl, by simp⟩, _, rfl, hMessage rfl⟩

end Places

/-! ## Whole lines -/

/-- The leftmost misplaced place of a list lies between these two parts. What stands
before the list counts for its first place. -/
structure Leftmost (before : Option Token) (ts front rest : List Token) : Prop where
  split : ts = front ++ rest
  misplaced : Misplaced (front.getLast?.or before) rest.head?
  earlier : ∀ front' rest', ts = front' ++ rest' → front'.length < front.length →
    ¬ Misplaced (front'.getLast?.or before) rest'.head?

theorem getLast?_cons_or (t : Token) (front : List Token) (before : Option Token) :
    (t :: front).getLast?.or before = front.getLast?.or (some t) := by
  rw [List.getLast?_cons]
  cases front.getLast? <;> rfl

/-- A place behind the first token is a place of what follows it. -/
theorem Leftmost.cons {before : Option Token} {t : Token} {ts front rest : List Token}
    (hFirst : ¬ Misplaced before (some t)) (h : Leftmost (some t) ts front rest) :
    Leftmost before (t :: ts) (t :: front) rest where
  split := by rw [h.split, List.cons_append]
  misplaced := by
    rw [getLast?_cons_or]
    exact h.misplaced
  earlier := by
    intro front' rest' hSplit hShorter
    cases front' with
    | nil =>
        have hHead : rest'.head? = some t := by
          rw [← show t :: ts = rest' from hSplit]
          rfl
        rw [hHead]
        exact hFirst
    | cons u front' =>
        obtain ⟨rfl, hTail⟩ := List.cons.inj hSplit
        rw [getLast?_cons_or]
        exact h.earlier front' rest' hTail (by simpa using hShorter)

theorem Leftmost.unique {before : Option Token} {ts front rest front' rest' : List Token}
    (h : Leftmost before ts front rest) (h' : Leftmost before ts front' rest') :
    front = front' ∧ rest = rest' := by
  have hLe : front.length ≤ front'.length := Nat.le_of_not_lt fun hLess =>
    h.earlier front' rest' h'.split hLess h'.misplaced
  have hGe : front'.length ≤ front.length := Nat.le_of_not_lt fun hLess =>
    h'.earlier front rest h.split hLess h.misplaced
  have hParts : front ++ rest = front' ++ rest' := by rw [← h.split, h'.split]
  exact List.append_inj hParts (by omega)

/-- **A line is read up to its leftmost misplaced place**, and as a whole if it has none. -/
theorem run_placed (ts : List Token) :
    ∀ {m : Mode} {before : Option Token}, m.IsAfter before →
      ((∀ front rest, ts = front ++ rest → ¬ Misplaced (front.getLast?.or before) rest.head?) ∧
          ∃ trees, reader.run m ts = .ok trees) ∨
        ∃ front rest e, Leftmost before ts front rest ∧ reader.run m ts = .error e ∧
          e.message = complaint (front.getLast?.or before) rest.head? := by
  induction ts with
  | nil =>
      intro m before hAfter
      rcases finish_placed hAfter with ⟨hPlaced, hFinish⟩ | ⟨hMisplaced, e, hFinish, hMessage⟩
      · left
        refine ⟨fun front rest hSplit => ?_, hFinish⟩
        obtain ⟨rfl, rfl⟩ := List.append_eq_nil_iff.mp hSplit.symm
        exact hPlaced
      · right
        refine ⟨[], [], e, ⟨rfl, hMisplaced, fun _ _ _ hLess => ?_⟩, hFinish, hMessage⟩
        exact absurd hLess (Nat.not_lt_zero _)
  | cons t ts ih =>
      intro m before hAfter
      rcases step_placed hAfter t with
        ⟨hPlaced, out, m', hStep, hAfter'⟩ | ⟨hMisplaced, e, hStep, hMessage⟩
      · rcases ih hAfter' with ⟨hNone, trees, hRun⟩ | ⟨front, rest, e, hLeftmost, hRun, hMessage⟩
        · left
          refine ⟨fun front rest hSplit => ?_, out ++ trees, ?_⟩
          · cases front with
            | nil =>
                rw [← show t :: ts = rest from hSplit]
                exact hPlaced
            | cons u front =>
                obtain ⟨rfl, hTail⟩ := List.cons.inj hSplit
                rw [getLast?_cons_or]
                exact hNone front rest hTail
          · rw [Transducer.run_cons_of_step hStep, hRun]
            rfl
        · right
          refine ⟨t :: front, rest, e, hLeftmost.cons hPlaced, ?_, ?_⟩
          · rw [Transducer.run_cons_of_step hStep, hRun]
            rfl
          · rw [getLast?_cons_or]
            exact hMessage
      · right
        refine ⟨[], t :: ts, e, ⟨rfl, hMisplaced, fun _ _ _ hLess => ?_⟩, ?_, hMessage⟩
        · exact absurd hLess (Nat.not_lt_zero _)
        · exact Transducer.run_cons_of_step_error hStep ts

theorem exists_run_iff (ts : List Token) :
    (∃ trees, reader.run .fresh ts = .ok trees) ↔ WellPlaced ts := by
  have hStart : Mode.IsAfter none .fresh := by simp [Mode.IsAfter]
  rw [Token.wellPlaced_iff]
  rcases run_placed ts hStart with ⟨hNone, hRun⟩ | ⟨front, rest, e, hLeftmost, hRun, -⟩
  · simp only [Option.or_none] at hNone
    exact iff_of_true hRun hNone
  · constructor
    · rintro ⟨trees, hTrees⟩
      rw [hRun] at hTrees
      cases hTrees
    · intro hNone
      have hMisplaced := hLeftmost.misplaced
      rw [Option.or_none] at hMisplaced
      exact absurd hMisplaced (hNone front rest hLeftmost.split)

theorem message_run_iff (ts : List Token) (message : String) :
    (reader.run .fresh ts).mapError ParseError.message = .error message ↔
      ∃ front rest, Leftmost none ts front rest ∧
        message = complaint front.getLast? rest.head? := by
  have hStart : Mode.IsAfter none .fresh := by simp [Mode.IsAfter]
  rcases run_placed ts hStart with
    ⟨hNone, trees, hRun⟩ | ⟨front, rest, e, hLeftmost, hRun, hMessage⟩
  · rw [hRun]
    constructor
    · intro h
      cases h
    · rintro ⟨front, rest, hLeftmost, -⟩
      exact absurd hLeftmost.misplaced (hNone front rest hLeftmost.split)
  · rw [hRun]
    rw [Option.or_none] at hMessage
    constructor
    · intro h
      have hSaid : e.message = message := Except.error.inj h
      exact ⟨front, rest, hLeftmost, by rw [← hSaid, hMessage]⟩
    · rintro ⟨front', rest', hLeftmost', rfl⟩
      obtain ⟨rfl, rfl⟩ := hLeftmost.unique hLeftmost'
      exact congrArg Except.error hMessage

end MemShell.Tree.Parse
