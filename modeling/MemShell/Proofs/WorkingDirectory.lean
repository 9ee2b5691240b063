import MemShell.Proofs.AskedDirectories
import MemShell.Proofs.CallLaws
import MemShell.Proofs.CallTrails

/-!
# The working directory exists

A session keeps its working directory in a variable, so anything that sets variables could
make it a text that names nothing. Commands do not set it directly. `cd` asks for a
directory that it has looked for, the request is merged with those of the other commands
of its tree, and when the tree has ended the session looks for the directory once more
before it moves there. Between the two looks nothing is lost, since the store keeps its
directories. If no command sets or removes the variable by its name, it therefore names a
directory at every time, by an absolute path, and so does the variable for the directory
before, if it was a move that set it.

Whether a move set it is read off the trace (`oldByMove`), which says which changes were
made and in which order. Within one request the variables are changed first and the move
comes last.

The law is one of trees with all that is done because of them (`StaysPlaced`), and goes to
calls by `CallLaw`.

## Main results

* `staysPlaced_made` — making the changes of one tree.
* `callLaw_staysPlaced` — the law of trees, and so of calls.
* `workingDir_exists` — the working directory after any calls.
-/

namespace MemShell.Session

open Execute

/-! ## Where a session is -/

/-- The working directory is an absolute path that names a directory. -/
def AtPlace (s : Session FileTree) : Prop :=
  ∃ path, s.env.get? "PWD" = some path ∧ path.startsWith "/" = true ∧
    s.machine.store.isDir path = true

/-- There is a directory to go back to. -/
def CanReturn (s : Session FileTree) : Prop :=
  ∃ path, s.env.get? "OLDPWD" = some path ∧ s.machine.store.isDir path = true

/-- Whether the directory before was last set by a move, once this event has happened. -/
def oldByMove (before : Bool) : Event → Bool
  | .applied c => c.chdir.isSome || (before && (c.onVariable "OLDPWD").isNone)
  | _ => before

/-- The changes that were made, in order. -/
def changesMade (es : List Event) : List Changes :=
  es.filterMap fun
    | .applied c => some c
    | _ => none

/-- None of the changes that were made sets or removes this variable. -/
def Spares (key : String) (es : List Event) : Prop :=
  ∀ c ∈ changesMade es, c.onVariable key = none

instance (key : String) (es : List Event) : Decidable (Spares key es) :=
  inferInstanceAs (Decidable (∀ c ∈ changesMade es, _))

/-- The working directory is a place after these events, the moves among them have led
where they should, and the last of them can be taken back. -/
structure Settled (s : Session FileTree) (es : List Event) (t : Session FileTree) : Prop where
  here : AtPlace t
  back : ∀ before, (before = true → CanReturn s) → es.foldl oldByMove before = true → CanReturn t
  found : ∀ path, .targetVanished path ∉ es

/-- From a place the session gets to a place, unless the variable is set by its name. -/
def StaysPlaced (s : Session FileTree) (_ : Option Raised) (t : Session FileTree) : Prop :=
  t.machine.store.dirs = s.machine.store.dirs ∧
    ∃ es, Since s.machine t.machine es ∧ (Spares "PWD" es → AtPlace s → Settled s es t)

theorem isDir_congr {t t' : FileTree} (h : t'.dirs = t.dirs) (path : String) :
    t'.isDir path = t.isDir path := by
  unfold FileTree.isDir FileTree.hasDir
  rw [h]

theorem Spares.of_append {key : String} {es fs : List Event} (h : Spares key (es ++ fs)) :
    Spares key es ∧ Spares key fs := by
  unfold Spares changesMade at h
  rw [List.filterMap_append, List.forall_mem_append] at h
  exact h

theorem composes_staysPlaced : Composes StaysPlaced where
  refl := by
    intro s
    refine ⟨rfl, [], Since.refl _, fun _ hAt => ⟨hAt, fun before hBefore hMove => ?_, by simp⟩⟩
    exact hBefore hMove
  trans := by
    rintro s s₁ t e ⟨hDirs, es, hSince, hFirst⟩ ⟨hDirs', fs, hSince', hSecond⟩
    refine ⟨hDirs'.trans hDirs, es ++ fs, hSince.trans hSince', fun hSpares hAt => ?_⟩
    obtain ⟨hSpares₁, hSpares₂⟩ := hSpares.of_append
    have hMiddle := hFirst hSpares₁ hAt
    have hEnd := hSecond hSpares₂ hMiddle.here
    refine ⟨hEnd.here, fun before hBefore hMove => ?_, fun path hMem => ?_⟩
    · rw [List.foldl_append] at hMove
      exact hEnd.back _ (hMiddle.back before hBefore) hMove
    · rcases List.mem_append.mp hMem with hMem | hMem
      · exact hMiddle.found path hMem
      · exact hEnd.found path hMem

/-! ## What leaves the directory alone -/

section Aside

variable {s t : Session FileTree} {es : List Event}

theorem oldByMove_of_not_remarks {e : Event} (h : remarks e = false) (before : Bool) :
    oldByMove before e = before := by
  cases e <;> first | rfl | cases h

theorem foldl_oldByMove (h : ∀ e ∈ es, remarks e = false) (before : Bool) :
    es.foldl oldByMove before = before := by
  induction es with
  | nil => rfl
  | cons e es ih =>
      rw [List.foldl_cons, oldByMove_of_not_remarks (h e List.mem_cons_self)]
      exact ih fun e' he' => h e' (List.mem_cons_of_mem e he')

/-- The variables are the same, and the events tell of no changes. -/
theorem staysPlaced_aside (out : Option Raised) (hEnv : t.env = s.env)
    (hDirs : t.machine.store.dirs = s.machine.store.dirs) (hSince : Since s.machine t.machine es)
    (hPlain : ∀ e ∈ es, remarks e = false) : StaysPlaced s out t := by
  refine ⟨hDirs, es, hSince, fun _ hAt => ⟨?_, fun before hBefore hMove => ?_, ?_⟩⟩
  · obtain ⟨path, hPwd, hAbsolute, hDir⟩ := hAt
    exact ⟨path, by rw [hEnv, hPwd], hAbsolute, by rw [isDir_congr hDirs, hDir]⟩
  · rw [foldl_oldByMove hPlain] at hMove
    obtain ⟨path, hOld, hDir⟩ := hBefore hMove
    exact ⟨path, by rw [hEnv, hOld], by rw [isDir_congr hDirs, hDir]⟩
  · intro path hMem
    exact absurd (hPlain _ hMem) (by simp [remarks])

theorem staysPlaced_log {e : Event} (h : remarks e = false) (s : Session FileTree) :
    StaysPlaced s none { s with machine := s.machine.log e } :=
  staysPlaced_aside none rfl rfl (Since.log _ e) (by simpa using h)

/-- Asking the store. -/
theorem staysPlaced_after {α : Type} {action : HostM Fault FileTree α} (h : LeavesStore action)
    (out : Option Raised) (s : Session FileTree) :
    StaysPlaced s out { s with machine := s.machine.after action } := by
  refine staysPlaced_aside out rfl ?_ (Since.after _ action) ?_
  · rw [store_after h]
  · intro e he
    obtain ⟨note, -, rfl⟩ := List.mem_map.mp he
    rfl

end Aside

/-! ## Changes -/

section Changes

variable {s : Session FileTree} {path : String}

/-- A question leaves the machine as it is. -/
theorem after_ask {α : Type} (question : FileTree → Except Fault α) (m : Machine FileTree) :
    m.after (Storage.ask question) = m := by
  unfold Machine.after endState Storage.ask
  cases question m.host.store <;> simp [Machine.absorb, Machine.host]

/-- A move is made exactly if the directory is there, and is remarked on if it is not. -/
theorem changeDir_eq (path : String) (s : Session FileTree) :
    changeDir Cli.shell (some path) s =
      if s.machine.store.isDir path = true then .ok () { s with env := moveTo s.env path }
      else .ok () { s with machine := s.machine.log (.targetVanished path) } := by
  have hAsk := onStorage_eq (Storage.ask fun t => .ok (t.isDir path)) s
  rw [after_ask] at hAsk
  have hAnswer : answerOf (Storage.ask fun t => .ok (t.isDir path)) s.machine.host =
      .ok (s.machine.store.isDir path) := rfl
  rw [hAnswer] at hAsk
  refine (bind_of_ok hAsk).trans ?_
  cases s.machine.store.isDir path <;> rfl

theorem get?_changedEnv_of_spared {key : String} {c : Changes} (h : c.onVariable key = none)
    (env : Table String String) : (changedEnv env c).get? key = env.get? key := by
  rw [Changes.get?_changedEnv, h]
  rfl

theorem get?_moveTo_pwd (env : Table String String) (path : String) :
    (moveTo env path).get? "PWD" = some path :=
  Table.get?_insert_self ..

theorem get?_moveTo_oldpwd (env : Table String String) (path : String) :
    (moveTo env path).get? "OLDPWD" = some ((env.get? "PWD").getD "/") := by
  unfold moveTo
  rw [Table.get?_insert, if_neg (by decide), Table.get?_insert_self]

/-- **Making the changes of one tree**, up to the lines that are sourced. -/
theorem staysPlaced_made {c : Changes} {t : Session FileTree}
    (hAsked : AtPlace s → c.AsksIn s.machine.store.dirs)
    (hMove : changeDir Cli.shell c.chdir
      { s with env := changedEnv s.env c, aliases := changedAliases s.aliases c } = .ok () t) :
    StaysPlaced s none { t with machine := t.machine.log (.applied c) } := by
  cases hDir : c.chdir with
  | none =>
      rw [hDir] at hMove
      cases hMove
      refine ⟨rfl, [.applied c], Since.log _ _, fun hSpares hAt => ⟨?_, ?_, by simp⟩⟩
      · obtain ⟨path, hPwd, hPlace⟩ := hAt
        refine ⟨path, ?_, hPlace⟩
        rw [get?_changedEnv_of_spared (hSpares c List.mem_cons_self), hPwd]
      · intro before hBefore hMoved
        have hKept : before = true ∧ c.onVariable "OLDPWD" = none := by
          simpa [oldByMove, hDir] using hMoved
        obtain ⟨path, hOld, hPlace⟩ := hBefore hKept.1
        refine ⟨path, ?_, hPlace⟩
        rw [get?_changedEnv_of_spared hKept.2, hOld]
  | some path =>
      rw [hDir, changeDir_eq] at hMove
      by_cases hThere : s.machine.store.isDir path = true
      · rw [if_pos hThere] at hMove
        cases hMove
        refine ⟨rfl, [.applied c], Since.log _ _, fun hSpares hAt => ⟨?_, ?_, by simp⟩⟩
        · have hPlace := isPlace_iff.mp (hAsked hAt path hDir)
          exact ⟨path, get?_moveTo_pwd _ path, hPlace⟩
        · intro before _ _
          obtain ⟨old, hPwd, -, hOld⟩ := hAt
          refine ⟨old, ?_, hOld⟩
          rw [get?_moveTo_oldpwd, get?_changedEnv_of_spared (hSpares c List.mem_cons_self), hPwd]
          rfl
      · rw [if_neg hThere] at hMove
        cases hMove
        refine ⟨rfl, _, (Since.log _ _).trans (Since.log _ _), fun _ hAt => ?_⟩
        exact absurd (isPlace_iff.mp (hAsked hAt path hDir)).2 hThere

end Changes

/-! ## Trees -/

theorem leads_trans {ε S α : Type} {R : S → Option ε → S → Prop} (hR : Composes R) {s t : S}
    {action : EStateM ε S α} (h : R s none t) (h' : Leads R action t) :
    Leads (fun _ => R s) action t :=
  hR.trans h h'

section Trees

variable {α : Type} {s : Session FileTree}

theorem inMemory_context (s : Session FileTree) : (s.context Cli.shell).InMemory :=
  fun _ hStorage => (Option.some.inj hStorage).symm

theorem isPlaced_context (h : AtPlace s) : (s.context Cli.shell).IsPlaced := by
  obtain ⟨path, hPwd, hAbsolute, -⟩ := h
  exact ⟨rfl, path, hPwd, hAbsolute⟩

theorem dirs_run (s : Session FileTree) (tree : Tree) (m : Machine FileTree) :
    (endState (run Cli.shell.registry (s.context Cli.shell) tree) m).store.dirs =
      m.store.dirs := by
  have hRun := treeRun_run Builtin.registry (s.context Cli.shell) tree m
  have hWritten : ∀ c ∈ tree.simples, ∀ r ∈ c.outputs,
      .ofText ((s.context Cli.shell).resolve r.file) ∈ tree.targets (s.context Cli.shell) :=
    fun c hSimple r hOutput =>
      List.mem_map.mpr ⟨r, List.mem_flatMap.mpr ⟨c, hSimple, hOutput⟩, rfl⟩
  exact (frame_of_treeRun holds_leavesStore (inMemory_context s) hWritten hRun).dirs_eq

/-- While a tree is run nothing happens to the session. -/
theorem staysPlaced_run (s : Session FileTree) (tree : Tree) (out : Option Raised) (status : Int) :
    StaysPlaced s out
      { s with
        machine := endState (run Cli.shell.registry (s.context Cli.shell) tree)
          (s.machine.log (.started tree))
        lastStatus := status } := by
  obtain ⟨es, hSince, hAll⟩ := since_run Cli.shell s tree
  refine staysPlaced_aside out rfl (dirs_run s tree _) hSince ?_
  intro e he
  rcases List.mem_cons.mp he with rfl | he
  · rfl
  · have hOfTree := hAll e he
    cases e <;> first | rfl | cases hOfTree

variable {sourcing : List String → SessionM FileTree Output}
  (hSourcing : ∀ lines s, Leads StaysPlaced (sourcing lines) s)
include hSourcing

theorem staysPlaced_applyWith {c : Changes} (hAsked : AtPlace s → c.AsksIn s.machine.store.dirs) :
    Leads StaysPlaced (applyWith sourcing Cli.shell c) s := by
  have hC := composes_staysPlaced
  obtain ⟨t, hMove⟩ : ∃ t, changeDir Cli.shell c.chdir
      { s with env := changedEnv s.env c, aliases := changedAliases s.aliases c } = .ok () t := by
    cases c.chdir with
    | none => exact ⟨_, rfl⟩
    | some path =>
        rw [changeDir_eq]
        split
        · exact ⟨_, rfl⟩
        · exact ⟨_, rfl⟩
  unfold applyWith
  refine leads_bind_of_ok rfl (leads_bind_of_ok hMove (leads_bind_of_ok rfl ?_))
  refine leads_trans hC (staysPlaced_made hAsked hMove) ?_
  refine leads_sourced hC hSourcing c.sourceLines (fun extra s₁ => ?_) _
  cases c.exitCode with
  | none => exact leads_of_ok rfl (hC.refl s₁)
  | some code =>
      refine leads_bind_of_ok rfl (leads_bind_of_ok rfl (leads_of_ok rfl ?_))
      exact staysPlaced_aside none rfl rfl (Since.log _ _) (by simp [remarks])

/-- **One tree** with all that is done because of it. -/
theorem staysPlaced_runTree (tree : Tree) (s : Session FileTree) :
    Leads StaysPlaced (runTree sourcing Cli.shell tree) s := by
  have hC := composes_staysPlaced
  have hEmit : emit (.started tree) s =
      .ok () { s with machine := s.machine.log (.started tree) } := rfl
  unfold runTree
  refine leads_bind_of_ok hEmit (leads_bind_of_ok rfl ?_)
  cases hRun : run Cli.shell.registry (s.context Cli.shell) tree
      (s.machine.log (.started tree)) with
  | error e m =>
      have hBroke := staysPlaced_run s tree (some e) s.lastStatus
      simp only [endState, hRun] at hBroke
      exact leads_bind_of_error (onMachine_of_error hRun) hBroke
  | ok result m =>
      have hRan := staysPlaced_run s tree none result.status
      simp only [endState, hRun] at hRan
      have hAsked : AtPlace s → result.changes.AsksIn m.store.dirs := by
        intro hAt path hPath
        rw [hRan.1]
        exact isPlace_of_run (isPlaced_context hAt) hRun hPath
      refine leads_bind_of_ok (onMachine_of_ok hRun) (leads_bind_of_ok rfl ?_)
      refine leads_trans hC hRan ?_
      cases result.changes.isEmpty with
      | true => exact leads_of_ok rfl (hC.refl _)
      | false =>
          have hSame : AtPlace { s with machine := m, lastStatus := result.status } → AtPlace s := by
            rintro ⟨path, hPwd, hAbsolute, hDir⟩
            exact ⟨path, hPwd, hAbsolute, by rw [← isDir_congr hRan.1, hDir]⟩
          refine hC.leads_bind (staysPlaced_applyWith hSourcing fun hAt => hAsked (hSame hAt)) ?_
          intro extra s₁ _
          cases extra with
          | none => exact leads_of_ok rfl (hC.refl s₁)
          | some extra => exact leads_of_ok rfl (hC.refl s₁)

end Trees

/-! ## Calls -/

/-- **The law of trees, and so of calls.** -/
theorem callLaw_staysPlaced : CallLaw Cli.shell StaysPlaced where
  composes := composes_staysPlaced
  tree := staysPlaced_runTree
  renewed := by
    intro s
    unfold renewed
    split
    · exact staysPlaced_aside none rfl rfl (Since.refl _) (by simp)
    · exact composes_staysPlaced.refl s
  misread := fun s => staysPlaced_aside none rfl rfl (Since.refl _) (by simp)
  nested := by
    intro s t e h
    have hEnter : StaysPlaced s none s.deeper :=
      staysPlaced_aside none rfl rfl (Since.log _ _) (by simp [remarks])
    obtain ⟨hDirs, es, hSince, hSettled⟩ := composes_staysPlaced.trans hEnter h
    refine ⟨hDirs, es, hSince, fun hSpares hAt => ?_⟩
    obtain ⟨hHere, hBack, hFound⟩ := hSettled hSpares hAt
    exact ⟨hHere, hBack, hFound⟩
  asked := fun path s => staysPlaced_after (.memory_contains path) _ s
  read := fun path s => staysPlaced_after (.memory_read path) none s
  said := by
    intro e hTells s
    refine staysPlaced_log ?_ s
    cases e <;> first | rfl | cases hTells

/-- What can be asked of a session. -/
inductive Request where
  | line (text : String)
  | profile
deriving DecidableEq, Repr

/-- The session after a request, however it ends. -/
def afterRequest (s : Session FileTree) : Request → Session FileTree
  | .line text => endState (evaluate Cli.shell text) s
  | .profile => endState (runProfile Cli.shell) s

def afterRequests (s : Session FileTree) (requests : List Request) : Session FileTree :=
  requests.foldl afterRequest s

theorem staysPlaced_afterRequests (requests : List Request) :
    ∀ s, StaysPlaced s none (afterRequests s requests) := by
  induction requests with
  | nil => exact composes_staysPlaced.refl
  | cons request requests ih =>
      intro s
      have hFirst : StaysPlaced s none (afterRequest s request) := by
        cases request with
        | line text => exact callLaw_staysPlaced.evaluate text s
        | profile => exact callLaw_staysPlaced.runProfile s
      exact composes_staysPlaced.trans hFirst (ih (afterRequest s request))

/--
**The working directory exists.** A session over the store kept in memory and with the core
commands starts in a directory, named by an absolute path. Lines are evaluated and the
profile is run, in any order and number, and none of the changes that are made sets or
removes `PWD` by name. Then the working directory is a directory, named by an absolute path,
and so is the one before it, if it was last set by a move. Every move led to a directory
that was there.
-/
theorem workingDir_exists (s : Session FileTree) (requests : List Request) (hStart : AtPlace s)
    (hSpares : Spares "PWD" (newEvents s.machine (afterRequests s requests).machine)) :
    let t := afterRequests s requests
    let events := newEvents s.machine t.machine
    AtPlace t ∧ (events.foldl oldByMove false = true → CanReturn t) ∧
      ∀ path, .targetVanished path ∉ events := by
  intro t events
  obtain ⟨-, es, hSince, hSettled⟩ := staysPlaced_afterRequests requests s
  have hEvents : events = es := hSince.newEvents_eq
  rw [hSince.newEvents_eq] at hSpares
  obtain ⟨hHere, hBack, hFound⟩ := hSettled hSpares hStart
  rw [hEvents]
  exact ⟨hHere, hBack false (by simp), hFound⟩

/-- A line that moves twice, by relative paths. -/
def roamingLine : String :=
  "cd tmp; cd ../home//user/."

/-- A session in the root directory. -/
def roamingStart : Session FileTree :=
  start ∅ ∅ (FileTree.ofDirs ["/tmp", "/home/user"])

def roamingEnd : Session FileTree :=
  endState (runTrees (runLinesIn Cli.shell maxDepth) Cli.shell
    [.simple ⟨"cd", ["tmp"], []⟩, .simple ⟨"cd", ["../home//user/."], []⟩] {})
    roamingStart.renewed

theorem afterRequests_roamingLine :
    afterRequests roamingStart [.line roamingLine] = roamingEnd := by
  have hLine : evaluate Cli.shell roamingLine roamingStart =
      runTrees (runLinesIn Cli.shell maxDepth) Cli.shell
        [.simple ⟨"cd", ["tmp"], []⟩, .simple ⟨"cd", ["../home//user/."], []⟩] {}
        roamingStart.renewed :=
    evaluateWith_of_parse _ _ (by decide +kernel) (parse_of_isEmpty rfl rfl rfl rfl)
  show endState (evaluate Cli.shell roamingLine) roamingStart = roamingEnd
  simp only [endState, hLine, roamingEnd]

theorem workingDir_exists_roamingLine :
    AtPlace roamingStart ∧
      roamingEnd.env.get? "PWD" = some "/home/user" ∧ roamingEnd.env.get? "OLDPWD" = some "/tmp" ∧
      AtPlace roamingEnd ∧ CanReturn roamingEnd := by
  have hStart : AtPlace roamingStart :=
    ⟨"/", by decide +kernel, by decide +kernel, by decide +kernel⟩
  have hEnd := afterRequests_roamingLine
  have hSpares : Spares "PWD" (newEvents roamingStart.machine
      (afterRequests roamingStart [.line roamingLine]).machine) := by
    rw [hEnd]
    decide +kernel
  obtain ⟨hHere, hBack, -⟩ := workingDir_exists roamingStart [.line roamingLine] hStart hSpares
  rw [hEnd] at hHere hBack
  exact ⟨hStart, by decide +kernel, by decide +kernel, hHere, hBack (by decide +kernel)⟩

end MemShell.Session
