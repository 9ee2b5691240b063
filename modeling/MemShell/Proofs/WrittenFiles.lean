import MemShell.Builtin
import MemShell.Proofs.StoreTrees
import MemShell.Proofs.TreeRuns

/-!
# Only outputs change files

A command can do what it likes to the store, and several of the core commands ask it
something: `cat`, `wc` and `source` read files, `cd` looks for a directory. None of them
writes. What is written while a tree is run is written by the shell, to the outputs of
the tree's commands, each at the place its spelling leads to: the path is resolved from
the working directory, and the store reads what comes out of that as a `Location`.

The frame of a run (`Frame`) is stated with those places. It holds of one output by the
laws of tables, of everything the core commands do because they leave the store alone
(`LeavesStore`), and so of a whole tree. The store kept in memory has no operation that
takes a file or a directory away, which is the rest of the frame.

## Main results

* `leavesStore_core` — no core command touches the store.
* `frame_of_treeRun` — the frame of a run, for commands that leave the store alone.
* `run_writes_outputs` — the frame of every tree of core commands, and what these see.
-/

namespace MemShell

open Execute
open Relation (ReflTransGen)

/-! ## Frames -/

/-- Between two trees of files, only these places were written to, and nothing was taken
away. -/
structure Frame (written : List Location) (t t' : FileTree) : Prop where
  dirs_eq : t'.dirs = t.dirs
  hasFile_of : ∀ l, t.hasFile l = true → t'.hasFile l = true
  get?_eq : ∀ l, l ∉ written → t'.files.get? l = t.files.get? l

namespace Frame

variable {written : List Location} {t t₁ t' : FileTree}

theorem refl (t : FileTree) : Frame written t t :=
  ⟨rfl, fun _ => id, fun _ _ => rfl⟩

theorem trans (h : Frame written t t₁) (h' : Frame written t₁ t') : Frame written t t' where
  dirs_eq := h'.dirs_eq.trans h.dirs_eq
  hasFile_of := fun l hFile => h'.hasFile_of l (h.hasFile_of l hFile)
  get?_eq := fun l hOther => (h'.get?_eq l hOther).trans (h.get?_eq l hOther)

theorem insert (t : FileTree) {l : Location} (hMem : l ∈ written) (text : String) :
    Frame written t { t with files := t.files.insert l text } where
  dirs_eq := rfl
  hasFile_of := by
    intro l' hFile
    unfold FileTree.hasFile Table.contains at *
    rw [Table.get?_insert]
    split
    · rfl
    · exact hFile
  get?_eq := by
    intro l' hOther
    have hNe : l ≠ l' := fun hSame => hOther (hSame ▸ hMem)
    rw [Table.get?_insert, if_neg hNe]

end Frame

/-- An operation on the place that a path leads to, if a file may be written there. -/
theorem frame_of_writable {written : List Location} {t t' : FileTree} {path : String}
    {content : Location → String} (hMem : .ofText path ∈ written)
    (h : (t.writable path).map (fun l => { t with files := t.files.insert l (content l) }) =
      .ok t') : Frame written t t' := by
  cases hPlace : t.writable path with
  | error f =>
      rw [hPlace] at h
      cases h
  | ok l =>
      rw [hPlace] at h
      cases h
      rw [(FileTree.writable_eq_ok_iff.mp hPlace).1]
      exact .insert t hMem _

/-! ## Actions that leave the store alone -/

section Keeps

variable {ε σ α β : Type}

/-- The store is as it was. -/
def KeepsStore (h : Host σ) (_ : Option ε) (h' : Host σ) : Prop :=
  h'.store = h.store

theorem composes_keepsStore : Composes (KeepsStore (ε := ε) (σ := σ)) where
  refl := fun _ => rfl
  trans := fun h h' => Eq.trans h' h

/-- Wherever the action starts and however it ends, the store is as it was. -/
def LeavesStore (action : HostM ε σ α) : Prop :=
  ∀ h, Leads KeepsStore action h

namespace LeavesStore

theorem pure (a : α) : LeavesStore (Pure.pure a : HostM ε σ α) :=
  fun _ => leads_of_ok rfl rfl

theorem throw (e : ε) : LeavesStore (MonadExcept.throw e : HostM ε σ α) :=
  fun _ => leads_of_error rfl rfl

theorem bind {action : HostM ε σ α} {next : α → HostM ε σ β} (h : LeavesStore action)
    (hNext : ∀ a, LeavesStore (next a)) : LeavesStore (action >>= next) :=
  fun s => composes_keepsStore.leads_bind (h s) fun a s₁ _ => hNext a s₁

theorem raising {action : HostM Fault σ α} (h : LeavesStore action) :
    LeavesStore (MemShell.raising action) := by
  intro s
  cases hRun : action s with
  | ok a t => exact leads_of_ok (a := a) (by simp only [MemShell.raising, hRun]) ((h s).of_ok hRun)
  | error f t =>
      exact leads_of_error (e := .fault f) (by simp only [MemShell.raising, hRun])
        ((h s).of_error hRun)

theorem attempt {action : HostM ε σ α} (h : LeavesStore action) :
    LeavesStore (MemShell.attempt action : HostM Fault σ (Except ε α)) := by
  intro s
  cases hRun : action s with
  | ok a t => exact leads_of_ok (a := .ok a) (by simp only [MemShell.attempt, hRun]) ((h s).of_ok hRun)
  | error e t =>
      exact leads_of_ok (a := .error e) (by simp only [MemShell.attempt, hRun])
        ((h s).of_error hRun)

theorem ask (question : FileTree → Except Fault α) : LeavesStore (Storage.ask question) := by
  intro h
  unfold Leads KeepsStore endState Storage.ask
  cases question h.store <;> rfl

theorem memory_read (path : String) : LeavesStore (Storage.memory.read path) :=
  ask (·.read path)

theorem memory_contains (path : String) : LeavesStore (Storage.memory.contains path) :=
  ask fun t => .ok (t.contains path)

theorem memory_isDir {isDir : String → HostM Fault FileTree Bool}
    (h : Storage.memory.isDir = some isDir) (path : String) : LeavesStore (isDir path) := by
  cases h
  exact ask _

end LeavesStore

end Keeps

/-! ## The core commands -/

/-- A context whose store, if there is one, is the store kept in memory. -/
def Context.InMemory (ctx : Context FileTree) : Prop :=
  ∀ storage, ctx.storage = some storage → storage = .memory

/-- A command that leaves the store alone wherever that is kept in memory. -/
def Command.LeavesStore (command : Command FileTree) : Prop :=
  ∀ call, call.context.InMemory → MemShell.LeavesStore (command call)

namespace Builtin

variable {ctx : Context FileTree}

theorem leavesStore_pure (f : Call FileTree → Outcome) : Command.LeavesStore (.pure f) :=
  fun call _ => .pure (some (f call))

theorem leavesStore_ofHost {f : Call FileTree → HostM Fault FileTree Outcome}
    (h : ∀ call, call.context.InMemory → LeavesStore (f call)) : Command.LeavesStore (.ofHost f) :=
  fun call hMemory => .bind (.raising (h call hMemory)) fun o => .pure (some o)

theorem leavesStore_readFile (hMemory : ctx.InMemory) (name : String) :
    LeavesStore (ctx.readFile name) := by
  unfold Context.readFile
  cases hStorage : ctx.storage with
  | none => exact .throw _
  | some storage =>
      obtain rfl := hMemory storage hStorage
      exact .memory_read _

theorem leavesStore_readFiles {α : Type} (command : String)
    {read : String → HostM Fault FileTree α} (hRead : ∀ name, LeavesStore (read name))
    (names : List String) : LeavesStore (readFiles command read names) := by
  induction names with
  | nil => exact .pure _
  | cons name names ih =>
      unfold readFiles
      refine .bind (.attempt (hRead name)) fun first => .bind ih fun rest => ?_
      cases first with
      | ok item => exact .pure _
      | error fault => exact .pure _

theorem leavesStore_cat (args : List String) (hMemory : ctx.InMemory) :
    LeavesStore (cat args ctx) := by
  unfold cat
  cases args.isEmpty with
  | true => exact .pure _
  | false =>
      refine .bind (leavesStore_readFiles _ (fun name => ?_) args) fun files => .pure _
      split
      · exact .pure _
      · exact leavesStore_readFile hMemory name

theorem leavesStore_wc (args : List String) (hMemory : ctx.InMemory) :
    LeavesStore (wc args ctx) := by
  unfold wc
  cases wcOptions {} args with
  | error letter => exact .pure _
  | ok found =>
      obtain ⟨asked, names⟩ := found
      show LeavesStore (if names.isEmpty then _ else _)
      split
      · exact .pure _
      · refine .bind (leavesStore_readFiles _ (fun name => ?_) names) fun files => .pure _
        exact .bind (leavesStore_readFile hMemory name) fun text => .pure _

theorem leavesStore_source (args : List String) (hMemory : ctx.InMemory) :
    LeavesStore (source args ctx) := by
  unfold source
  cases args with
  | nil => exact .pure _
  | cons name args =>
      refine .bind (.attempt (leavesStore_readFile hMemory name)) fun content => ?_
      cases content with
      | error fault => exact .pure _
      | ok content => exact .pure _

theorem leavesStore_cd (args : List String) (hMemory : ctx.InMemory) :
    LeavesStore (cd args ctx) := by
  unfold cd
  split
  · exact .pure _
  · cases hStorage : ctx.storage with
    | none => exact .pure _
    | some storage =>
        obtain rfl := hMemory storage hStorage
        refine .bind (.memory_contains _) fun found => ?_
        cases found with
        | false => exact .pure _
        | true =>
            cases hIsDir : Storage.memory.isDir with
            | none => exact .pure _
            | some isDir =>
                refine .bind (.memory_isDir hIsDir _) fun ok => ?_
                cases ok with
                | true => exact .pure _
                | false => exact .pure _

theorem leavesStore_history (args : List String) (ctx : Context FileTree) :
    LeavesStore (history args ctx) := by
  unfold history
  cases args with
  | nil => exact .pure _
  | cons arg args =>
      show LeavesStore (if _ then _ else _)
      split
      · exact .pure _
      · cases Numeral.readInt arg with
        | error e => exact .throw _
        | ok count => exact .pure _

/-- Waiting touches the signal and the notes. -/
theorem leavesStore_sleep (args : List String) :
    LeavesStore (sleep args : HostM Fault FileTree Outcome) := by
  unfold sleep
  split
  · split
    · exact .pure _
    · refine .bind (fun h => leads_of_ok rfl rfl) fun interrupted => ?_
      split
      · exact .pure _
      · exact .pure _
  · exact .pure _

/-- **No core command** touches the store. -/
theorem leavesStore_core :
    ∀ entry ∈ (core : List (List String × Command FileTree)), Command.LeavesStore entry.2 := by
  simp only [core, List.forall_mem_cons, List.not_mem_nil, false_imp_iff, implies_true, and_true]
  exact ⟨leavesStore_pure _,
    leavesStore_ofHost fun call hMemory => leavesStore_cat call.args hMemory,
    leavesStore_ofHost fun call hMemory => leavesStore_wc call.args hMemory,
    leavesStore_pure _, leavesStore_pure _,
    leavesStore_ofHost fun call _ => leavesStore_sleep call.args,
    leavesStore_pure _,
    leavesStore_ofHost fun call hMemory => leavesStore_cd call.args hMemory,
    leavesStore_pure _, leavesStore_pure _, leavesStore_pure _, leavesStore_pure _,
    leavesStore_pure _,
    leavesStore_ofHost fun call _ => leavesStore_history call.args call.context,
    leavesStore_ofHost fun call hMemory => leavesStore_source call.args hMemory,
    leavesStore_pure _, leavesStore_pure _⟩

end Builtin

/-! ## What a name stands for -/

namespace Registry

variable {α : Type} {P : α → Prop} {r : Registry α}

/-- Whatever a name stands for has this property. -/
def Holds (P : α → Prop) (r : Registry α) : Prop :=
  (∀ name entry, r.builtins.get? name = some entry → P entry) ∧
    ∀ path entry, r.programs.get? path = some entry → P entry

theorem holds_empty : Holds P ({} : Registry α) :=
  ⟨(fun _ _ h => by cases h), (fun _ _ h => by cases h)⟩

theorem Holds.add (h : Holds P r) (name : String) {entry : α} (hEntry : P entry) :
    Holds P (r.add name entry) := by
  refine ⟨fun name' entry' hGet => ?_, h.2⟩
  rw [Registry.add, Table.get?_insert] at hGet
  split at hGet
  · cases hGet
    exact hEntry
  · exact h.1 name' entry' hGet

theorem Holds.addAll (names : List String) {entry : α} (hEntry : P entry) :
    ∀ {r : Registry α}, Holds P r → Holds P (r.addAll names entry) := by
  induction names with
  | nil => exact fun h => h
  | cons name names ih => exact fun h => ih (h.add name hEntry)

theorem Holds.of_entries (entries : List (List String × α)) (hAll : ∀ e ∈ entries, P e.2) :
    ∀ {r : Registry α}, Holds P r →
      Holds P (entries.foldl (fun r (names, entry) => r.addAll names entry) r) := by
  induction entries with
  | nil => exact fun h => h
  | cons e entries ih =>
      obtain ⟨hEntry, hRest⟩ := List.forall_mem_cons.mp hAll
      exact fun h => ih hRest (h.addAll e.1 hEntry)

theorem Holds.of_resolve (h : Holds P r) {env : Table String String} {name : String} {entry : α}
    (hResolve : r.resolve env name = some entry) : P entry := by
  rw [resolve, Option.or_eq_some_iff] at hResolve
  rcases hResolve with hBuiltin | ⟨-, hProgram⟩
  · exact h.1 name entry hBuiltin
  · obtain ⟨path, -, hGet⟩ := Option.bind_eq_some_iff.mp hProgram
    exact h.2 path entry hGet

end Registry

theorem holds_leavesStore : Builtin.registry.Holds Command.LeavesStore :=
  Registry.Holds.of_entries Builtin.core Builtin.leavesStore_core Registry.holds_empty

/-! ## Runs -/

/-- The places that the outputs of a tree lead to. -/
def Tree.targets {σ : Type} (ctx : Context σ) (tree : Tree) : List Location :=
  (tree.simples.flatMap Simple.outputs).map fun r => .ofText (ctx.resolve r.file)

section Runs

variable {ctx : Context FileTree} {written : List Location} {m m' : Machine FileTree}

theorem store_after {ε α : Type} {action : HostM ε FileTree α} (h : LeavesStore action)
    (m : Machine FileTree) : (m.after action).store = m.store :=
  h m.host

theorem store_of_reads (hMemory : ctx.InMemory) (h : ReflTransGen (ReadStep ctx) m m') :
    m'.store = m.store := by
  induction h with
  | refl => rfl
  | tail _ hStep ih =>
      rw [← ih]
      cases hStep with
      | read hStorage path =>
          obtain rfl := hMemory _ hStorage
          exact store_after (.memory_read path) _
      | said => rfl

theorem store_called {registry : Registry (Command FileTree)} {c : Simple}
    {command : Command FileTree} (h : LeavesStore (call registry ctx c command))
    (m : Machine FileTree) : (called registry ctx c command m).store = m.store :=
  store_after h (m.log _)

theorem frame_change {f : FileTree → Except Fault FileTree} (note : Note)
    (hChange : ∀ t t', f t = .ok t' → Frame written t t') (m : Machine FileTree) :
    Frame written m.store (m.after (Storage.change f note)).store := by
  unfold Machine.after endState Storage.change
  cases hDone : f m.host.store with
  | ok t' => exact hChange m.store t' hDone
  | error fault => exact .refl m.store

theorem frame_write {path : String} (hMem : .ofText path ∈ written) (text : String)
    (m : Machine FileTree) :
    Frame written m.store (m.after (Storage.memory.write path text)).store :=
  frame_change (f := (·.write path text)) _ (fun _ _ h => frame_of_writable hMem h) m

theorem frame_append {path : String} (hMem : .ofText path ∈ written) (text : String)
    (m : Machine FileTree) :
    Frame written m.store (m.after (Storage.memory.append path text)).store :=
  frame_change (f := (·.append path text)) _ (fun _ _ h => frame_of_writable hMem h) m

theorem frame_of_writes (hMemory : ctx.InMemory) {outputs : List Redirect}
    (hWritten : ∀ r ∈ outputs, .ofText (ctx.resolve r.file) ∈ written)
    (h : ReflTransGen (WriteStep ctx outputs) m m') : Frame written m.store m'.store := by
  induction h with
  | refl => exact .refl m.store
  | tail _ hStep ih =>
      refine ih.trans ?_
      cases hStep with
      | write hStorage hMem text =>
          obtain rfl := hMemory _ hStorage
          exact frame_write (hWritten _ hMem) text _
      | append hStorage hMem text =>
          obtain rfl := hMemory _ hStorage
          exact frame_append (hWritten _ hMem) text _
      | said => exact .refl _

variable {registry : Registry (Command FileTree)} (hHolds : registry.Holds Command.LeavesStore)
include hHolds

theorem frame_of_simpleRun (hMemory : ctx.InMemory) {c : Simple} {e : Option Raised}
    (hWritten : ∀ r ∈ c.outputs, .ofText (ctx.resolve r.file) ∈ written)
    (h : SimpleRun registry ctx c m e m') : Frame written m.store m'.store := by
  -- up to the outputs, nothing has happened to the store
  have hCalled : ∀ {stdin : String} {command : Command FileTree} {m₁ : Machine FileTree},
      ReflTransGen (ReadStep ctx) m m₁ → registry.resolve ctx.env c.command = some command →
      (called registry { ctx with stdin } c command m₁).store = m.store := by
    intro stdin command m₁ hReads hResolve
    have hLeaves : LeavesStore (call registry { ctx with stdin } c command) :=
      hHolds.of_resolve hResolve _ hMemory
    exact (store_called hLeaves m₁).trans (store_of_reads hMemory hReads)
  cases h with
  | unstarted hReads =>
      rw [store_of_reads hMemory hReads]
      exact .refl m.store
  | met stdin hReads hResolve _ hWrites =>
      rw [← hCalled hReads hResolve]
      exact frame_of_writes hMemory hWritten hWrites
  | letOut stdin hReads hResolve =>
      rw [hCalled hReads hResolve]
      exact .refl m.store

/-- **The frame of a run.** -/
theorem frame_of_treeRun (hMemory : ctx.InMemory) {cs : List Simple} {e : Option Raised}
    (hWritten : ∀ c ∈ cs, ∀ r ∈ c.outputs, .ofText (ctx.resolve r.file) ∈ written)
    (h : TreeRun registry ctx cs m e m') : Frame written m.store m'.store := by
  have hC : Composes fun (m : Machine FileTree) (_ : Option Raised) m' =>
      Frame written m.store m'.store := ⟨fun m => .refl m.store, .trans⟩
  refine h.lift hC (fun m _ => .refl m.store) (fun m _ _ _ _ => .refl m.store) ?_
  intro stdin c m m' e hMem _ hRun
  have hStill : Context.InMemory { ctx with stdin } := hMemory
  exact frame_of_simpleRun hHolds hStill (hWritten c hMem) hRun

end Runs

/--
**Only outputs change files.** Running a tree of core commands over the store kept in
memory, from any tree of files and in any context, makes and removes no directory and
removes no file, and every file keeps its contents whose place is not one that an output
of the tree leads to. And all commands of the tree see the variables, the aliases and the
history of the context.
-/
theorem run_writes_outputs {ctx : Context FileTree} (hMemory : ctx.InMemory) (tree : Tree)
    (m : Machine FileTree) :
    let m' := endState (run Builtin.registry ctx tree) m
    m'.store.dirs = m.store.dirs ∧
      (∀ l, m.store.hasFile l = true → m'.store.hasFile l = true) ∧
      (∀ l, l ∉ tree.targets ctx → m'.store.files.get? l = m.store.files.get? l) ∧
      ∀ command args view, .dispatched command args view ∈ newEvents m m' →
        view.env = ctx.env ∧ view.aliases = ctx.aliases ∧ view.history = ctx.history := by
  intro m'
  have hRun : TreeRun Builtin.registry ctx tree.simples m _ m' := treeRun_run _ ctx tree m
  have hWritten : ∀ c ∈ tree.simples, ∀ r ∈ c.outputs,
      .ofText (ctx.resolve r.file) ∈ tree.targets ctx := fun c hSimple r hOutput =>
    List.mem_map.mpr ⟨r, List.mem_flatMap.mpr ⟨c, hSimple, hOutput⟩, rfl⟩
  have hFrame := frame_of_treeRun holds_leavesStore hMemory hWritten hRun
  refine ⟨hFrame.dirs_eq, hFrame.hasFile_of, hFrame.get?_eq, ?_⟩
  intro command args view hMem
  obtain ⟨es, hSince, hAll⟩ := hRun.ofTree
  rw [hSince.newEvents_eq] at hMem
  have hView : view = { ctx.toView with stdin := view.stdin } := hAll _ hMem
  rw [hView]
  exact ⟨rfl, rfl, rfl⟩

/-- A machine whose store has the file `/tmp/note`. -/
def noteMachine : Machine FileTree :=
  { store := { FileTree.ofDirs ["/tmp"] with files := .ofList [(.ofText "/tmp/note", "kept")] } }

/-- The directory `/tmp`, as commands see it. -/
def noteContext : Context FileTree :=
  { env := .ofList [("PWD", "/tmp")], storage := some .memory }

/-- The tree of `echo hi > ../tmp//out || cat note`. -/
def writingTree : Tree :=
  .logical (.simple ⟨"echo", ["hi"], [⟨.write, "../tmp//out"⟩]⟩) .or (.simple ⟨"cat", ["note"], []⟩)

/-- The one file that is written is the one that the spelling leads to. -/
theorem run_writes_outputs_writingTree :
    let m' := endState (run Builtin.registry noteContext writingTree) noteMachine
    noteContext.InMemory ∧ writingTree.targets noteContext = [.ofText "/tmp/out"] ∧
      m'.store.dirs = noteMachine.store.dirs ∧
      m'.store.files.get? (.ofText "/tmp/out") = some "hi\n" ∧
      m'.store.files.get? (.ofText "/tmp/note") = some "kept" := by
  intro m'
  have hMemory : noteContext.InMemory := fun storage hStorage => (Option.some_inj.mp hStorage).symm
  have hTargets : writingTree.targets noteContext = [.ofText "/tmp/out"] := by decide +kernel
  have hOther : .ofText "/tmp/note" ∉ writingTree.targets noteContext := by decide +kernel
  have hBefore : noteMachine.store.files.get? (.ofText "/tmp/note") = some "kept" := by
    decide +kernel
  obtain ⟨hDirs, -, hKept, -⟩ := run_writes_outputs hMemory writingTree noteMachine
  exact ⟨hMemory, hTargets, hDirs, by decide +kernel, (hKept _ hOther).trans hBefore⟩

end MemShell
