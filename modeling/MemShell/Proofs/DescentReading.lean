import MemShell.Proofs.CutReading
import MemShell.Proofs.PlacedTokens

/-!
# Reading a line by descent

The grammar of lines suggests a second reader: a line is read by reading chains, a
chain by reading pipelines, a pipeline by reading commands, and each of them takes its
tokens from what the one before it left. Written this way, two things can go wrong that
the reader of trees has no word for. A chain may leave a token that is no semicolon, and
a token may be taken where none is left. The descent says so where it happens
(`Stop.unexpected`, `Stop.pastEnd`).

Neither does happen. What a level leaves starts with a token that this level cannot
read, and level by level fewer tokens are of that kind: behind a command stands a
boundary, behind a pipeline a connective or a semicolon, behind a chain a semicolon.
That is said along with the agreement of the two readers (`Follows`), one lemma for each
level, the loops by recursion on what is left to read.

## Main results

* `commandRest_follows`, `pipeline_follows`, `chain_follows` — what a level reads and
  what it leaves.
* `trees_eq_build` — the two readers agree.
* `Tree.build_iff_wellPlaced` — which lists have trees, and what is said of the others.
-/

namespace MemShell.Descent

open Tree.Parse Written

/-! ## The second reader -/

/-- How a reading can end without a result. -/
inductive Stop where
  /-- Something is missing. -/
  | refused (error : ParseError)
  /-- A chain is followed by something else than a semicolon. -/
  | unexpected (kind : TokenKind)
  /-- A token was taken behind the last one. -/
  | pastEnd
deriving DecidableEq, Repr

/-- What was read from the front of a list, and the shorter list that is left. -/
structure Reading (α : Type) (ts : List Token) where
  value : α
  rest : List Token
  shorter : rest.length < ts.length

/-- What is read next, seen from where the reading began. -/
def Reading.next {α β γ : Type} {ts : List Token} (r : Reading α ts) (r' : Reading β r.rest)
    (value : γ) : Reading γ ts :=
  ⟨value, r'.rest, Nat.lt_trans r'.shorter r.shorter⟩

def take : (ts : List Token) → Except Stop (Reading Token ts)
  | [] => .error .pastEnd
  | t :: rest => .ok ⟨t, rest, Nat.lt_succ_self _⟩

/-- Takes a token that must be a text. -/
def text (missing : ParseError) (ts : List Token) : Except Stop (Reading Token ts) :=
  if ts.head?.any (·.kind.isText) then take ts else .error (.refused missing)

/-- Reads on in a command: arguments, and redirections with their files. -/
def commandRest {ts : List Token} (r : Reading Simple ts) : Except Stop (Reading Simple ts) :=
  match r.rest.head? with
  | none => .ok r
  | some t =>
      if t.kind.isText then do
        let arg ← take r.rest
        commandRest (r.next arg { r.value with args := r.value.args ++ [arg.value.value] })
      else
        match t.kind.redirectKind? with
        | none => .ok r
        | some kind => do
            let operator ← take r.rest
            let file ← text .noFile operator.rest
            commandRest (r.next (operator.next file ())
              { r.value with redirects := r.value.redirects ++ [⟨kind, file.value.value⟩] })
termination_by r.rest.length
decreasing_by
  · exact arg.shorter
  · exact (operator.next file ()).shorter

def command (ts : List Token) : Except Stop (Reading Simple ts) := do
  let name ← text (.noCommand (ts.head?.map Token.kind)) ts
  commandRest ⟨⟨name.value.value, [], []⟩, name.rest, name.shorter⟩

/-- Reads on in a pipeline. The last stage stands apart, the others are kept last first. -/
def stagesRest {ts : List Token} (r : Reading (Simple × List Simple) ts) :
    Except Stop (Reading (Simple × List Simple) ts) :=
  if r.rest.head?.any (·.kind = .pipe) then do
    let pipe ← take r.rest
    let stage ← command pipe.rest
    stagesRest (r.next (pipe.next stage ()) (stage.value, r.value.1 :: r.value.2))
  else .ok r
termination_by r.rest.length
decreasing_by exact (pipe.next stage ()).shorter

def pipeline (ts : List Token) : Except Stop (Reading Tree ts) := do
  let first ← command ts
  let stages ← stagesRest ⟨(first.value, []), first.rest, first.shorter⟩
  .ok ⟨Tree.ofStages (stages.value.1 :: stages.value.2).reverse, stages.rest, stages.shorter⟩

/-- Reads on in a chain, whose left operand is what was read of it. -/
def chainRest {ts : List Token} (r : Reading Tree ts) : Except Stop (Reading Tree ts) :=
  match r.rest.head?.bind (·.kind.connective?) with
  | none => .ok r
  | some c => do
      let operator ← take r.rest
      let right ← pipeline operator.rest
      chainRest (r.next (operator.next right ()) (.logical r.value c right.value))
termination_by r.rest.length
decreasing_by exact (operator.next right ()).shorter

def chain (ts : List Token) : Except Stop (Reading Tree ts) := do
  chainRest (← pipeline ts)

/-- Reads a line. A chain ends at a semicolon or with the line. -/
def trees (ts : List Token) : Except Stop (List Tree) :=
  if ts = [] then .ok []
  else do
    let r ← chain ts
    match r.rest.head? with
    | none => .ok [r.value]
    | some t =>
        if t.kind = .semicolon then do
          let semicolon ← take r.rest
          let others ← trees semicolon.rest
          .ok (r.value :: others)
        else .error (.unexpected t.kind)
termination_by ts.length
decreasing_by exact (r.next semicolon ()).shorter

/-! ## Agreement -/

/-- A reading and the reader of trees, which gives `ran`: both are refused alike, or the
reader of trees goes on from what was read, and what is left starts as the level ends. -/
def Follows {α : Type} {ts : List Token} (ends : TokenKind → Prop)
    (next : α → List Token → Except ParseError (List Tree)) :
    Except Stop (Reading α ts) → Except ParseError (List Tree) → Prop
  | .ok r, ran => (∀ t ∈ r.rest.head?, ends t.kind) ∧ ran = next r.value r.rest
  | .error (.refused e), ran => ran = .error e
  | .error _, _ => False

section Agreement

variable {α β : Type} {ts us : List Token} {ends ends' : TokenKind → Prop}
  {next : α → List Token → Except ParseError (List Tree)}
  {next' : β → List Token → Except ParseError (List Tree)}
  {ran : Except ParseError (List Tree)} {t : Token}

/-- What follows a reading agrees if it agrees from where the reading ended. -/
theorem Follows.bind {x : Except Stop (Reading α ts)}
    {f : Reading α ts → Except Stop (Reading β us)} (hFirst : Follows ends next x ran)
    (hNext : ∀ r : Reading α ts, (∀ t ∈ r.rest.head?, ends t.kind) →
      Follows ends' next' (f r) (next r.value r.rest)) :
    Follows ends' next' (x >>= f) ran := by
  match x, hFirst with
  | .ok r, ⟨hEnds, hRan⟩ =>
      rw [hRan]
      exact hNext r hEnds
  | .error (.refused e), hRan => exact hRan

/-- A token that was seen can be taken. -/
theorem Follows.take {f : Reading Token ts → Except Stop (Reading β us)}
    {go : List Token → Except ParseError (List Tree)} (hSeen : ts.head? = some t)
    (hRan : ∀ rest, ts = t :: rest → ran = go rest)
    (hNext : ∀ r : Reading Token ts, r.value = t → Follows ends' next' (f r) (go r.rest)) :
    Follows ends' next' (take ts >>= f) ran := by
  match ts, hSeen with
  | _ :: rest, rfl =>
      rw [hRan rest rfl]
      exact hNext ⟨_, rest, _⟩ rfl

/-- A token that the reader of trees takes in silence. -/
theorem run_of_silent {m m' : Mode} (hStep : reader.step m t = .ok ([], m')) (rest : List Token)
    (hRest : ts = t :: rest) : reader.run m ts = reader.run m' rest := by
  rw [hRest, Transducer.run_cons_of_step hStep]
  cases reader.run m' rest <;> rfl

end Agreement

/-! ## Commands -/

section Commands

variable {ts : List Token}

/-- A text that must come: the reader of trees takes it or is refused as well. -/
theorem text_follows {missing : ParseError} {m : Mode} {after : Token → Mode}
    (hText : ∀ t, t.kind.isText = true → reader.step m t = .ok ([], after t))
    (hOther : ∀ t ∈ ts.head?, t.kind.isText = false → reader.step m t = .error missing)
    (hEnd : ts = [] → reader.finish m = .error missing) :
    Follows (fun _ => True) (fun t rest => reader.run (after t) rest) (text missing ts)
      (reader.run m ts) := by
  unfold text
  match ts with
  | [] => exact hEnd rfl
  | t :: rest =>
      by_cases h : t.kind.isText = true
      · rw [if_pos (by simpa using h)]
        exact ⟨fun _ _ => trivial, run_of_silent (hText t h) rest rfl⟩
      · rw [if_neg (by simpa using h)]
        exact Transducer.run_cons_of_step_error (hOther t rfl (by simpa using h)) rest

theorem step_after_text (o : Outer) (c : Simple) {t : Token} (hText : t.kind.isText = true) :
    reader.step (.after o c) t = .ok ([], .after o { c with args := c.args ++ [t.value] }) := by
  rw [Mode.after, Tree.Parse.step_rest_text hText, Mode.after, List.reverse_append]
  rfl

/-- **A command** takes arguments and redirections up to a boundary. -/
theorem commandRest_follows (o : Outer) (r : Reading Simple ts) :
    Follows (·.isBoundary = true) (fun c rest => reader.run (.after o c) rest) (commandRest r)
      (reader.run (.after o r.value) r.rest) := by
  rw [commandRest]
  cases hSeen : r.rest.head? with
  | none => exact ⟨by simp [hSeen], rfl⟩
  | some t =>
      simp only
      by_cases hText : t.kind.isText = true
      · rw [if_pos hText]
        apply Follows.take hSeen (run_of_silent (step_after_text o r.value hText))
        rintro arg rfl
        exact commandRest_follows o (r.next arg _)
      · rw [if_neg hText]
        cases hKind : t.kind.redirectKind? with
        | none =>
            have hBoundary : t.kind.isBoundary = true := by
              rcases t.kind.isText_or_redirects_or_isBoundary with h | ⟨kind, h⟩ | h
              · exact absurd h hText
              · rw [hKind] at h
                cases h
              · exact h
            have hEnds : ∀ u ∈ r.rest.head?, u.kind.isBoundary = true := by
              intro u hu
              rw [hSeen] at hu
              exact Option.some.inj hu ▸ hBoundary
            exact ⟨hEnds, rfl⟩
        | some kind =>
            apply Follows.take hSeen (run_of_silent (step_rest_redirection hKind))
            intro operator _
            apply Follows.bind (text_follows (fun _ => step_file_text)
              (fun _ _ => step_file_not_text) (fun _ => rfl))
            intro file _
            have hFile : Mode.rest o r.value.command r.value.args.reverse
                (⟨kind, file.value.value⟩ :: r.value.redirects.reverse) =
                .after o { r.value with
                  redirects := r.value.redirects ++ [⟨kind, file.value.value⟩] } := by
              rw [Mode.after, List.reverse_append]
              rfl
            rw [hFile]
            exact commandRest_follows o (r.next (operator.next file ()) _)
termination_by r.rest.length
decreasing_by
  · exact arg.shorter
  · exact (operator.next file ()).shorter

theorem command_follows (o : Outer) (ts : List Token) :
    Follows (·.isBoundary = true) (fun c rest => reader.run (.after o c) rest) (command ts)
      (reader.run (.name o) ts) := by
  apply Follows.bind (text_follows (fun _ => step_name_text) ?_ ?_)
  · intro name _
    exact commandRest_follows o ⟨⟨name.value.value, [], []⟩, name.rest, name.shorter⟩
  · intro t ht hText
    rw [Option.mem_def.mp ht]
    exact step_name_not_text hText
  · rintro rfl
    rfl

end Commands

/-! ## Pipelines and chains -/

section Chains

variable {ts : List Token}

/-- What stands behind a pipeline. -/
def EndsPipeline (k : TokenKind) : Prop :=
  k.isBoundary = true ∧ k ≠ .pipe

/-- **Stages** are taken as long as pipes come. -/
theorem stagesRest_follows (left : Option (Tree × Connective))
    (r : Reading (Simple × List Simple) ts)
    (hEnds : ∀ t ∈ r.rest.head?, t.kind.isBoundary = true) :
    Follows EndsPipeline (fun v rest => reader.run (.after ⟨left, v.2⟩ v.1) rest) (stagesRest r)
      (reader.run (.after ⟨left, r.value.2⟩ r.value.1) r.rest) := by
  rw [stagesRest]
  cases hSeen : r.rest.head? with
  | none => exact ⟨by simp [hSeen], rfl⟩
  | some t =>
      by_cases hPipe : t.kind = .pipe
      · rw [if_pos (by simpa using hPipe)]
        have hStep : reader.step (.after ⟨left, r.value.2⟩ r.value.1) t =
            .ok ([], .name ⟨left, r.value.1 :: r.value.2⟩) := by
          rw [Mode.after, step_rest_pipe hPipe, ofRead_reverse]
        apply Follows.take hSeen (run_of_silent hStep)
        intro pipe _
        apply Follows.bind (command_follows _ pipe.rest)
        intro stage hStage
        exact stagesRest_follows left (r.next (pipe.next stage ()) _) hStage
      · rw [if_neg (by simpa using hPipe)]
        refine ⟨fun u hu => ?_, rfl⟩
        rw [hSeen] at hu
        obtain rfl := Option.some.inj hu
        exact ⟨hEnds t hSeen, hPipe⟩
termination_by r.rest.length
decreasing_by exact (pipe.next stage ()).shorter

/-- The reader of trees where a tree is complete and no pipe comes. -/
def closing (tree : Tree) : List Token → Except ParseError (List Tree)
  | [] => .ok [tree]
  | t :: rest =>
      match t.kind.connective? with
      | some c => reader.run (.name ⟨some (tree, c), []⟩) rest
      | none => (reader.run .fresh rest).map (tree :: ·)

theorem run_after_eq_closing {left : Option (Tree × Connective)} {earlier : List Simple}
    {c : Simple} {rest : List Token} (hEnds : ∀ t ∈ rest.head?, EndsPipeline t.kind) :
    reader.run (.after ⟨left, earlier⟩ c) rest =
      closing (attach left (Tree.ofStages (c :: earlier).reverse)) rest := by
  have hClose : Outer.close ⟨left, earlier⟩ (ofRead c.command c.args.reverse c.redirects.reverse) =
      attach left (Tree.ofStages (c :: earlier).reverse) := by
    rw [ofRead_reverse]
    cases left <;> rfl
  rw [← hClose]
  cases rest with
  | nil => rfl
  | cons t rest =>
      obtain ⟨hBoundary, hPipe⟩ := hEnds t rfl
      rcases TokenKind.boundary_cases hBoundary with hKind | ⟨connective, hKind⟩ | hKind
      · exact absurd hKind hPipe
      · rw [closing, hKind]
        exact run_of_silent (step_rest_connective hKind) rest rfl
      · rw [closing, hKind]
        exact Transducer.run_cons_of_step (step_rest_semicolon hKind) rest

/-- **A pipeline** is followed by a connective or a semicolon. -/
theorem pipeline_follows (left : Option (Tree × Connective)) (ts : List Token) :
    Follows EndsPipeline (fun tree rest => closing (attach left tree) rest) (pipeline ts)
      (reader.run (.name ⟨left, []⟩) ts) := by
  apply Follows.bind (command_follows ⟨left, []⟩ ts)
  intro first hFirst
  apply Follows.bind
    (stagesRest_follows left ⟨(first.value, []), first.rest, first.shorter⟩ hFirst)
  intro stages hStages
  exact ⟨hStages, run_after_eq_closing hStages⟩

/-- Operands are taken as long as connectives come. -/
theorem chainRest_follows (r : Reading Tree ts)
    (hEnds : ∀ t ∈ r.rest.head?, EndsPipeline t.kind) :
    Follows (· = .semicolon) closing (chainRest r) (closing r.value r.rest) := by
  rw [chainRest]
  cases hSeen : r.rest.head? with
  | none => exact ⟨by simp [hSeen], rfl⟩
  | some t =>
      rw [Option.bind_some]
      cases hKind : t.kind.connective? with
      | none =>
          have hSemicolon : t.kind = .semicolon := by
            obtain ⟨hBoundary, hPipe⟩ := hEnds t hSeen
            rcases TokenKind.boundary_cases hBoundary with h | ⟨c, h⟩ | h
            · exact absurd h hPipe
            · rw [hKind] at h
              cases h
            · exact h
          refine ⟨fun u hu => ?_, rfl⟩
          rw [hSeen] at hu
          exact Option.some.inj hu ▸ hSemicolon
      | some c =>
          have hRun : ∀ rest, r.rest = t :: rest →
              closing r.value r.rest = reader.run (.name ⟨some (r.value, c), []⟩) rest := by
            intro rest hRest
            rw [hRest, closing, hKind]
          apply Follows.take hSeen hRun
          intro operator _
          apply Follows.bind (pipeline_follows (some (r.value, c)) operator.rest)
          intro right hRight
          exact chainRest_follows (r.next (operator.next right ()) _) hRight
termination_by r.rest.length
decreasing_by exact (operator.next right ()).shorter

/-- **A chain** is followed by a semicolon. -/
theorem chain_follows (ts : List Token) :
    Follows (· = .semicolon) closing (chain ts) (reader.run (.name .empty) ts) :=
  (pipeline_follows none ts).bind chainRest_follows

end Chains

/-! ## Lines -/

/-- **The two readers agree**, and so the descent stops only where something is missing. -/
theorem trees_eq_build (ts : List Token) :
    trees ts = (Tree.build ts).mapError .refused := by
  rw [trees]
  by_cases hNil : ts = []
  · rw [if_pos hNil, hNil]
    rfl
  · rw [if_neg hNil]
    have hBuild : Tree.build ts = reader.run (.name .empty) ts := by
      obtain ⟨t, rest, rfl⟩ := List.exists_cons_of_ne_nil hNil
      rfl
    have hChain := chain_follows ts
    rw [hBuild]
    match chain ts, hChain with
    | .error (.refused e), hRan =>
        rw [hRan]
        rfl
    | .ok ⟨tree, [], _⟩, ⟨_, hRan⟩ =>
        rw [hRan]
        rfl
    | .ok ⟨tree, t :: rest, hShorter⟩, ⟨hEnds, hRan⟩ =>
        have hSemicolon : t.kind = .semicolon := hEnds t rfl
        have hOthers : trees rest = (reader.run .fresh rest).mapError .refused :=
          trees_eq_build rest
        rw [hRan, closing, hSemicolon]
        show (if t.kind = .semicolon then trees rest >>= fun others => .ok (tree :: others)
          else .error (.unexpected t.kind)) = _
        rw [if_pos hSemicolon, hOthers]
        cases reader.run .fresh rest <;> rfl
termination_by ts.length
decreasing_by
  have hLonger : (t :: rest).length < ts.length := hShorter
  simp only [List.length_cons] at hLonger
  omega

end MemShell.Descent

namespace MemShell.Tree

open Token (WellPlaced complaint)
open Parse (Leftmost)

/--
**Which tokens form commands.** A list has trees exactly if it is well placed. If it is
not, what is said of it is decided by its leftmost misplaced place. The reading by descent
comes to the same result: no chain leaves a token that is unexpected, and no token is taken
past the end.
-/
theorem build_iff_wellPlaced (ts : List Token) :
    ((∃ trees, build ts = .ok trees) ↔ WellPlaced ts) ∧
      (∀ message, (build ts).mapError ParseError.message = .error message ↔
        ∃ front rest, Leftmost none ts front rest ∧
          message = complaint front.getLast? rest.head?) ∧
      Descent.trees ts = (build ts).mapError .refused ∧
      (∀ kind, Descent.trees ts ≠ .error (.unexpected kind)) ∧
      Descent.trees ts ≠ .error .pastEnd := by
  have hDescent := Descent.trees_eq_build ts
  have hRefused : ∀ stop, Descent.trees ts = .error stop → ∃ e, stop = .refused e := by
    intro stop hStop
    rw [hDescent] at hStop
    match build ts, hStop with
    | .error e, hStop => exact ⟨e, (Except.error.inj hStop).symm⟩
  refine ⟨Parse.exists_run_iff ts, Parse.message_run_iff ts, hDescent, ?_, ?_⟩
  · intro kind hStop
    obtain ⟨e, he⟩ := hRefused _ hStop
    cases he
  · intro hStop
    obtain ⟨e, he⟩ := hRefused _ hStop
    cases he

end MemShell.Tree
