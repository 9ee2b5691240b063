import MemShell.Proofs.AskedChanges

/-!
# Which directories a tree asks for

Of the core commands only `cd` asks for another working directory, and it asks the store
first. What it then asks for is not what the user wrote: the text is seen from the working
directory and simplified, so it is an absolute path if the working directory is one. The
commands of a tree all see the same working directory, and while they run no directory is
made or removed. So whatever directory a tree asks for in the end, after the requests of
its commands were merged, is an absolute path that names a directory there is
(`IsPlace`), both when its command asked for it and when the tree has ended.

## Main results

* `resolvePath_absolute` — seen from an absolute path, every path is absolute.
* `asksPlaces_core` — what the core commands ask for.
* `isPlace_of_run` — what a tree of core commands asks for.
-/

namespace MemShell

open Execute
open Relation (ReflTransGen)

/-! ## Absolute paths -/

theorem startsWith_slash_iff {s : String} :
    s.startsWith "/" = true ↔ s.toList.head? = some '/' := by
  rw [String.startsWith_string_iff]
  show ['/'] <+: s.toList ↔ _
  cases s.toList with
  | nil => simp
  | cons c cs => simp [eq_comm]

/-- What a text that starts with a slash is followed by does not matter. -/
theorem startsWith_slash_append {s : String} (h : s.startsWith "/" = true) (t : String) :
    (s ++ t).startsWith "/" = true := by
  rw [startsWith_slash_iff] at h ⊢
  rw [String.toList_append, List.head?_append, h]
  rfl

theorem ne_empty_of_startsWith_slash {s : String} (h : s.startsWith "/" = true) : s ≠ "" := by
  rintro rfl
  rw [startsWith_slash_iff] at h
  cases h

namespace Path

theorem join_absolute {base : String} (hBase : base.startsWith "/" = true) (path : String) :
    (join base path).startsWith "/" = true := by
  unfold join
  by_cases hPath : path.startsWith "/" = true
  · rw [if_pos hPath]
    exact hPath
  · rw [if_neg hPath]
    split
    · exact startsWith_slash_append hBase path
    · exact startsWith_slash_append (startsWith_slash_append hBase "/") path

/-- A text that starts with a slash is read from a root. -/
theorem ofChars_ne_relative {cs : List Char} (h : cs.head? = some '/') :
    Anchor.ofChars cs ≠ .relative := by
  cases cs with
  | nil => cases h
  | cons c cs =>
      obtain rfl : c = '/' := Option.some.inj h
      unfold Anchor.ofChars
      split <;> simp_all

theorem text_absolute {p : Path} (h : p.anchor ≠ .relative) : p.text.startsWith "/" = true := by
  have hStart : (p.anchor.text ++ "/".intercalate p.parts).startsWith "/" = true := by
    apply startsWith_slash_append
    cases hAnchor : p.anchor with
    | relative => exact absurd hAnchor h
    | root => decide +kernel
    | doubleRoot => decide +kernel
  have hSome : (p.anchor.text ++ "/".intercalate p.parts).isEmpty = false := by
    simpa using ne_empty_of_startsWith_slash hStart
  unfold text
  simp only [hSome]
  exact hStart

theorem normalize_absolute {s : String} (h : s.startsWith "/" = true) :
    (normalize s).startsWith "/" = true :=
  text_absolute (ofChars_ne_relative (startsWith_slash_iff.mp h))

end Path

/-- Seen from an absolute path, every path is absolute. -/
theorem resolvePath_absolute {env : Table String String} {base : String}
    (hPwd : env.get? "PWD" = some base) (hBase : base.startsWith "/" = true) (path : String) :
    (resolvePath env path).startsWith "/" = true := by
  have hText : env.textOr "PWD" "/" = base := by
    unfold Table.textOr
    rw [hPwd]
    split
    case h_1 hEmpty =>
      exact absurd (Option.some.inj hEmpty) (ne_empty_of_startsWith_slash hBase)
    case h_2 hNone => cases hNone
    case h_3 value _ hValue => exact (Option.some.inj hValue).symm
  unfold resolvePath
  rw [hText]
  exact Path.normalize_absolute (Path.join_absolute hBase path)

/-! ## Places -/

/-- An absolute path that names one of these directories. -/
def IsPlace (dirs : List Location) (path : String) : Prop :=
  path.startsWith "/" = true ∧ .ofText path ∈ dirs

theorem isPlace_iff {t : FileTree} {path : String} :
    IsPlace t.dirs path ↔ path.startsWith "/" = true ∧ t.isDir path = true := by
  unfold IsPlace FileTree.isDir FileTree.hasDir
  rw [List.contains_iff_mem]

/-! ## What commands ask for -/

/-- However it ends, an action asks for no directory. -/
def StaysPut {σ : Type} (action : HostM Fault σ Outcome) : Prop :=
  ∀ h o, answerOf action h = .ok o → o.changes.chdir = none

namespace StaysPut

variable {σ α : Type}

theorem iff_asks {action : HostM Fault σ Outcome} :
    StaysPut action ↔ Asks (fun c => c.chdir = none) action :=
  Iff.rfl

theorem pure {o : Outcome} (h : o.changes.chdir = none) :
    StaysPut (Pure.pure o : HostM Fault σ Outcome) :=
  iff_asks.mpr (.pure h)

theorem throw (f : Fault) : StaysPut (MonadExcept.throw f : HostM Fault σ Outcome) :=
  iff_asks.mpr (.throw f)

theorem bind {action : HostM Fault σ α} {next : α → HostM Fault σ Outcome}
    (h : ∀ a, StaysPut (next a)) : StaysPut (action >>= next) :=
  iff_asks.mpr (.bind fun a => iff_asks.mp (h a))

end StaysPut

/-- A context with the store kept in memory and an absolute working directory. -/
structure Context.IsPlaced (ctx : Context FileTree) : Prop where
  storage_eq : ctx.storage = some .memory
  absolute : ∃ path, ctx.env.get? "PWD" = some path ∧ path.startsWith "/" = true

theorem Context.IsPlaced.inMemory {ctx : Context FileTree} (h : ctx.IsPlaced) : ctx.InMemory := by
  intro storage hStorage
  rw [h.storage_eq] at hStorage
  exact (Option.some.inj hStorage).symm

/-- A command that asks only for directories there are, by their absolute paths. -/
def Command.AsksPlaces (command : Command FileTree) : Prop :=
  ∀ call host o, call.context.IsPlaced → answerOf (command call) host = .ok (some o) →
    ∀ path, o.changes.chdir = some path → IsPlace host.store.dirs path

namespace Builtin

theorem asksPlaces_pure {f : Call FileTree → Outcome}
    (h : ∀ call, (f call).changes.chdir = none) : Command.AsksPlaces (.pure f) := by
  intro call host o _ hAnswer path hPath
  obtain rfl : f call = o := Option.some.inj (Except.ok.inj hAnswer)
  rw [h call] at hPath
  cases hPath

theorem asksPlaces_ofHost {f : Call FileTree → HostM Fault FileTree Outcome}
    (h : ∀ call, StaysPut (f call)) : Command.AsksPlaces (.ofHost f) := by
  intro call host o _ hAnswer path hPath
  rw [h call host o (answerOf_ofHost hAnswer)] at hPath
  cases hPath

theorem chdir_readExports (args : List String) :
    ∀ changes : Changes, (readExports changes args).changes.chdir = changes.chdir := by
  induction args with
  | nil => intro changes; rfl
  | cons arg args ih =>
      intro changes
      unfold readExports
      split
      · exact ih changes
      · split
        · exact ih _
        · rfl

theorem chdir_exportVars (args : List String) (ctx : Context FileTree) :
    (exportVars args ctx).changes.chdir = none := by
  unfold exportVars
  split
  · rfl
  · exact chdir_readExports args {}

theorem chdir_defineAliases (args : List String) (ctx : Context FileTree) :
    (defineAliases args ctx).changes.chdir = none := by
  unfold defineAliases
  split <;> rfl

theorem chdir_removeAliases (args : List String) (ctx : Context FileTree) :
    (removeAliases args ctx).changes.chdir = none := by
  unfold removeAliases
  split <;> rfl

theorem chdir_exit (args : List String) : (exit args).changes.chdir = none := by
  unfold exit
  split
  · rfl
  · split <;> rfl

theorem chdir_describe (call : Call FileTree) : (describe call).changes.chdir = none := by
  unfold describe
  split <;> rfl

theorem staysPut_cat (args : List String) (ctx : Context FileTree) : StaysPut (cat args ctx) := by
  unfold cat
  split
  · exact .pure rfl
  · exact .bind fun files => .pure rfl

theorem staysPut_wc (args : List String) (ctx : Context FileTree) : StaysPut (wc args ctx) := by
  unfold wc
  split
  · exact .pure rfl
  · split
    · exact .pure rfl
    · exact .bind fun files => .pure rfl

theorem staysPut_source (args : List String) (ctx : Context FileTree) :
    StaysPut (source args ctx) := by
  unfold source
  split
  · exact .pure rfl
  · refine .bind fun content => ?_
    split
    · exact .pure rfl
    · exact .pure rfl

theorem staysPut_history (args : List String) (ctx : Context FileTree) :
    StaysPut (history args ctx) := by
  unfold history
  split
  · exact .pure rfl
  · split
    · exact .pure rfl
    · split
      · exact .throw _
      · exact .pure rfl

theorem staysPut_sleep (args : List String) :
    StaysPut (sleep args : HostM Fault FileTree Outcome) := by
  unfold sleep
  split
  · split
    · exact .pure rfl
    · refine .bind fun interrupted => ?_
      split
      · exact .pure rfl
      · exact .pure rfl
  · exact .pure rfl

/-- What `cd` asks for is a path seen from the working directory, and the store has a
directory there. -/
theorem isDir_of_cd {args : List String} {ctx : Context FileTree}
    (hStorage : ctx.storage = some .memory) {host : Host FileTree} {o : Outcome} {path : String}
    (hAnswer : answerOf (cd args ctx) host = .ok o) (hPath : o.changes.chdir = some path) :
    (∃ target, path = ctx.resolve target) ∧ host.store.isDir path = true := by
  unfold cd at hAnswer
  by_cases hArgs : args.length > 1
  · rw [if_pos hArgs] at hAnswer
    obtain rfl := Except.ok.inj hAnswer
    cases hPath
  · rw [if_neg hArgs, hStorage] at hAnswer
    dsimp only at hAnswer
    generalize (if cdTarget ctx.env args = "-" then
      ctx.env.textOr "OLDPWD" (ctx.env.textOr "PWD" "/") else cdTarget ctx.env args) = target
      at hAnswer
    have hFound : Storage.memory.contains (ctx.resolve target) host =
        .ok (host.store.contains (ctx.resolve target)) host := rfl
    rw [answerOf_bind_of_ok hFound] at hAnswer
    cases hThere : host.store.contains (ctx.resolve target) with
    | false =>
        rw [hThere] at hAnswer
        obtain rfl := Except.ok.inj hAnswer
        cases hPath
    | true =>
        rw [hThere] at hAnswer
        have hLooked : Storage.ask (fun t => .ok (t.isDir (ctx.resolve target))) host =
            .ok (host.store.isDir (ctx.resolve target)) host := rfl
        change answerOf (Storage.ask _ >>= _) host = _ at hAnswer
        rw [answerOf_bind_of_ok hLooked] at hAnswer
        cases hDir : host.store.isDir (ctx.resolve target) with
        | false =>
            rw [hDir] at hAnswer
            obtain rfl := Except.ok.inj hAnswer
            cases hPath
        | true =>
            rw [hDir] at hAnswer
            obtain rfl := Except.ok.inj hAnswer
            obtain rfl := Option.some.inj hPath
            exact ⟨⟨target, rfl⟩, hDir⟩

/-- The one command that asks for a directory looks for it first. -/
theorem asksPlaces_cd : Command.AsksPlaces (.ofHost fun call => cd call.args call.context) := by
  intro call host o hPlaced hAnswer path hPath
  obtain ⟨base, hPwd, hBase⟩ := hPlaced.absolute
  obtain ⟨⟨target, rfl⟩, hDir⟩ :=
    isDir_of_cd hPlaced.storage_eq (answerOf_ofHost hAnswer) hPath
  exact isPlace_iff.mpr ⟨resolvePath_absolute hPwd hBase target, hDir⟩

/-- **What the core commands ask for.** -/
theorem asksPlaces_core :
    ∀ entry ∈ (core : List (List String × Command FileTree)), Command.AsksPlaces entry.2 := by
  simp only [core, List.forall_mem_cons, List.not_mem_nil, false_imp_iff, implies_true, and_true]
  exact ⟨asksPlaces_pure fun call => rfl,
    asksPlaces_ofHost fun call => staysPut_cat call.args call.context,
    asksPlaces_ofHost fun call => staysPut_wc call.args call.context,
    asksPlaces_pure fun _ => rfl, asksPlaces_pure fun _ => rfl,
    asksPlaces_ofHost fun call => staysPut_sleep call.args,
    asksPlaces_pure fun _ => rfl,
    asksPlaces_cd,
    asksPlaces_pure fun _ => rfl,
    asksPlaces_pure fun call => chdir_exportVars call.args call.context,
    asksPlaces_pure fun _ => rfl,
    asksPlaces_pure fun call => chdir_defineAliases call.args call.context,
    asksPlaces_pure fun call => chdir_removeAliases call.args call.context,
    asksPlaces_ofHost fun call => staysPut_history call.args call.context,
    asksPlaces_ofHost fun call => staysPut_source call.args call.context,
    asksPlaces_pure fun call => chdir_exit call.args,
    asksPlaces_pure chdir_describe⟩

end Builtin

theorem holds_asksPlaces : Builtin.registry.Holds Command.AsksPlaces :=
  Registry.Holds.of_entries Builtin.core Builtin.asksPlaces_core Registry.holds_empty

/-! ## What a tree asks for -/

/-- The changes ask for no directory but one of these. -/
def Changes.AsksIn (dirs : List Location) (c : Changes) : Prop :=
  ∀ path, c.chdir = some path → IsPlace dirs path

/-- The same of the changes of a command that has ended. -/
def Event.AsksIn (dirs : List Location) (e : Event) : Prop :=
  ∀ c, e.changes? = some c → c.AsksIn dirs

theorem Changes.AsksIn.merge {dirs : List Location} {a b : Changes} (hFirst : a.AsksIn dirs)
    (hSecond : b.AsksIn dirs) : (a.merge b).AsksIn dirs := by
  intro path hPath
  have hOr : b.chdir.or a.chdir = some path := hPath
  rcases Option.or_eq_some_iff.mp hOr with hLater | ⟨-, hEarlier⟩
  · exact hSecond path hLater
  · exact hFirst path hEarlier

section Runs

variable {ctx : Context FileTree} {dirs : List Location} {m m' : Machine FileTree}

theorem asksIn_called (registry : Registry (Command FileTree)) (c : Simple)
    {command : Command FileTree} (hAsks : command.AsksPlaces) (hPlaced : ctx.IsPlaced)
    (m : Machine FileTree) :
    Adds (Event.AsksIn m.store.dirs) m (called registry ctx c command m) :=
  asked_called fun o hAnswer => hAsks _ m.host o hPlaced hAnswer

variable {registry : Registry (Command FileTree)} (hHolds : registry.Holds Command.AsksPlaces)
include hHolds

theorem asksIn_of_simpleRun (hPlaced : ctx.IsPlaced) {c : Simple} {e : Option Raised}
    (h : SimpleRun registry ctx c m e m') : Adds (Event.AsksIn m.store.dirs) m m' := by
  have hReading : ∀ {m₁ : Machine FileTree}, ReflTransGen (ReadStep ctx) m m₁ →
      Adds (Event.AsksIn m.store.dirs) m m₁ :=
    adds_of_reads (fun _ => asked_of_changes?_eq_none rfl)
      fun _ _ => asked_of_changes?_eq_none rfl
  have hCalling : ∀ (stdin : String) {command : Command FileTree} {m₁ : Machine FileTree},
      ReflTransGen (ReadStep ctx) m m₁ → registry.resolve ctx.env c.command = some command →
      Adds (Event.AsksIn m.store.dirs) m (called registry { ctx with stdin } c command m₁) := by
    intro stdin command m₁ hReads hResolve
    have hSees : Context.IsPlaced { ctx with stdin } := ⟨hPlaced.storage_eq, hPlaced.absolute⟩
    have hCalled := asksIn_called registry c (hHolds.of_resolve hResolve) hSees m₁
    rw [store_of_reads hPlaced.inMemory hReads] at hCalled
    exact (hReading hReads).trans hCalled
  cases h with
  | unstarted hReads => exact hReading hReads
  | letOut stdin hReads hResolve => exact hCalling stdin hReads hResolve
  | met stdin hReads hResolve _ hWrites =>
      refine (hCalling stdin hReads hResolve).trans ?_
      exact adds_of_writes (fun _ => asked_of_changes?_eq_none rfl)
        (fun _ _ _ => asked_of_changes?_eq_none rfl) hWrites

end Runs

/-- The directories stay the same, and the commands that end ask for places among them. -/
def AsksPlaces (m : Machine FileTree) (_ : Option Raised) (m' : Machine FileTree) : Prop :=
  m'.store.dirs = m.store.dirs ∧ Adds (Event.AsksIn m.store.dirs) m m'

theorem composes_asksPlaces : Composes AsksPlaces where
  refl := fun m => ⟨rfl, .refl m⟩
  trans := by
    rintro m m₁ m' e ⟨hDirs, hAdds⟩ ⟨hDirs', hAdds'⟩
    rw [hDirs] at hDirs' hAdds'
    exact ⟨hDirs', hAdds.trans hAdds'⟩

theorem asksPlaces_of_treeRun {ctx : Context FileTree} (hPlaced : ctx.IsPlaced)
    {cs : List Simple} {m m' : Machine FileTree} {e : Option Raised}
    (h : TreeRun Builtin.registry ctx cs m e m') : AsksPlaces m e m' := by
  have hLog : ∀ (m : Machine FileTree) {e : Event}, e.changes? = none →
      AsksPlaces m none (m.log e) :=
    fun m e hNone => ⟨rfl, .log m (asked_of_changes?_eq_none hNone)⟩
  refine h.lift composes_asksPlaces (fun m _ => hLog m rfl) (fun m _ _ _ _ => hLog m rfl) ?_
  intro stdin c m m' e _ _ hRun
  have hSees : Context.IsPlaced { ctx with stdin } := ⟨hPlaced.storage_eq, hPlaced.absolute⟩
  have hWritten : ∀ r ∈ c.outputs, .ofText (ctx.resolve r.file) ∈
      c.outputs.map fun r => Location.ofText (ctx.resolve r.file) :=
    fun r hr => List.mem_map_of_mem hr
  have hFrame := frame_of_simpleRun holds_leavesStore hSees.inMemory hWritten hRun
  exact ⟨hFrame.dirs_eq, asksIn_of_simpleRun holds_asksPlaces hSees hRun⟩

/-- **What a tree asks for.** If a tree of core commands ends, the directory that it asks
for, if any, is one that was there before and is there now, by its absolute path. -/
theorem isPlace_of_run {ctx : Context FileTree} (hPlaced : ctx.IsPlaced) {tree : Tree}
    {m m' : Machine FileTree} {o : Outcome} (h : run Builtin.registry ctx tree m = .ok o m')
    {path : String} (hPath : o.changes.chdir = some path) : IsPlace m.store.dirs path := by
  have hRun : AsksPlaces m none m' :=
    asksPlaces_of_treeRun hPlaced ((treeRun_run Builtin.registry ctx tree m).of_ok h)
  have hNothing : Changes.AsksIn m.store.dirs {} := fun path hPath => by cases hPath
  exact asked_of_added hNothing (fun _ _ => .merge) hRun.2 h path hPath

end MemShell
