import MemShell.Proofs.GivenOptions
import MemShell.Proofs.MadeDirectories
import MemShell.Proofs.SourcedProfile

/-!
# The profile of a new session

A session that is given no store makes one: empty, with directories for programs, for temporary
files and for the user. The profile would be a file in the last of these. It is never there.
The store has no files, and a directory of that name would have to be on the way to one of the
three that were made. What lies one name below a place is not on the way to that place, however
its path is written, with slashes at the end, with dots, or relative (`ofText_profilePath`,
`not_isOnWay_child`); and the other two have one name each, which is a different one.

The program works with such a session. So its profile is looked for in vain, which leaves the
session as it is, and the option to leave it out cannot be told from its absence (`begin_eq`,
`profile_unseen`). There is one trace of the search, which says nothing of the profile: the
search is a run, and a log that shows its lowest level shows that there was one (`opening`,
`program_eq_after`).

## Main results

* `FileTree.hasDir_ofDirs_iff` — the directories of a new store.
* `Session.not_contains_profilePath` — a session with its own store has no profile.
* `Cli.program_eq_after`, `Cli.printed_program_noProfile` — what the search for the profile adds
  to a report, and where it does not show.
* `Cli.profile_unseen` — the program does the same with the profile and without it.
-/

namespace MemShell

/-! ## The place of the profile -/

namespace Location

/-- Slashes at the end of a path change nothing. -/
theorem ofText_append_slashes (s : String) (m : Nat) :
    ofText (s ++ String.ofList (List.replicate m '/')) = ofText s := by
  induction m with
  | zero => simp
  | succ m ih =>
      have hText : (s ++ String.ofList (List.replicate (m + 1) '/')).toList =
          (s ++ String.ofList (List.replicate m '/')).toList ++ '/' :: [] := by
        simp [List.replicate_succ']
      have hPieces : Text.split '/' (s ++ String.ofList (List.replicate (m + 1) '/')) =
          Text.split '/' (s ++ String.ofList (List.replicate m '/')) ++ [""] := by
        rw [Text.split, hText, Text.splitAt_append_cons, List.map_append]
        rfl
      rw [← ih, ofText, ofText, hPieces, List.foldl_append]
      rfl

theorem ofText_dropSlashes (dir : String) : ofText (Registry.dropSlashes dir) = ofText dir := by
  obtain ⟨m, hText⟩ := (Registry.exists_dropSlashes dir).1
  have hDir : dir = Registry.dropSlashes dir ++ String.ofList (List.replicate m '/') := by
    apply String.toList_inj.mp
    rw [String.toList_append, String.toList_ofList, ← hText]
  rw [← ofText_append_slashes (Registry.dropSlashes dir) m, ← hDir]

theorem isEntryName_profile : IsEntryName ".profile" :=
  ⟨by decide, by decide, by decide, by decide⟩

/-- The profile lies one name below the directory of the user. -/
theorem ofText_profilePath (home : String) :
    ofText (Registry.dropSlashes home ++ "/.profile") = (ofText home).child ".profile" := by
  have hPath : Registry.dropSlashes home ++ "/.profile" =
      Registry.dropSlashes home ++ "/" ++ ".profile" := by
    rw [String.append_assoc]
    rfl
  rw [hPath, ofText_child _ isEntryName_profile, ofText_dropSlashes]

/-- What lies below a place is not on the way to it. -/
theorem not_isOnWay_child (l : Location) (name : String) : ¬ (l.child name).IsOnWay l := by
  intro hWay
  have hLength : (l.parts ++ [name]).length ≤ l.parts.length := hWay.length_le
  rw [List.length_append, List.length_singleton] at hLength
  omega

/-- On the way to a place directly below the root there are the root and the place. -/
theorem isOnWay_single_iff {l : Location} {dir : String} :
    l.IsOnWay ⟨[dir]⟩ ↔ l = .root ∨ l = ⟨[dir]⟩ := by
  have hCons : l.IsOnWay ⟨[dir].reverse⟩ ↔ _ := isOnWay_cons_iff
  rw [List.reverse_singleton, List.reverse_nil] at hCons
  rw [hCons, or_comm]
  exact or_congr_left isOnWay_root_iff

theorem child_ne_root (l : Location) (name : String) : l.child name ≠ .root := by
  intro hRoot
  have hParts : l.parts ++ [name] = [] := congrArg parts hRoot
  simp at hParts

end Location

/-! ## New stores -/

namespace FileTree

/-- Directories made in a store without files are made with their ways. -/
theorem hasDir_foldl_ensureDir (paths : List String) :
    ∀ {t : FileTree}, t.WellFormed → (∀ l, t.hasFile l = false) →
      (∀ l, (paths.foldl ensureDir t).hasFile l = false) ∧
        ∀ l, (paths.foldl ensureDir t).hasDir l = true ↔
          t.hasDir l = true ∨ ∃ path ∈ paths, l.IsOnWay (.ofText path) := by
  induction paths with
  | nil =>
      intro t _ hNoFile
      exact ⟨hNoFile, fun l => by simp⟩
  | cons path paths ih =>
      intro t hForm hNoFile
      obtain ⟨t', hMade, hFiles, hDirs⟩ := exists_mkdirAll hForm fun l _ => hNoFile l
      have hFirst : t.ensureDir path = t' := by
        rw [ensureDir, hMade]
      have hNoFile' : ∀ l, t'.hasFile l = false := by
        intro l
        rw [hasFile, hFiles]
        exact hNoFile l
      obtain ⟨hNone, hRest⟩ := ih (kept_mkdirAll hMade hForm).1 hNoFile'
      rw [List.foldl_cons, hFirst]
      refine ⟨hNone, fun l => ?_⟩
      rw [hRest, hDirs, or_assoc, List.exists_mem_cons_iff]

theorem hasFile_ofDirs (paths : List String) (l : Location) : (ofDirs paths).hasFile l = false :=
  (hasDir_foldl_ensureDir paths wellFormed_empty fun _ => rfl).1 l

/-- **The directories of a new store** are those on the ways to the ones it was made with. -/
theorem hasDir_ofDirs_iff {paths : List String} {l : Location} :
    (ofDirs paths).hasDir l = true ↔ l = .root ∨ ∃ path ∈ paths, l.IsOnWay (.ofText path) := by
  have hRoot : empty.hasDir l = true ↔ l = .root := by
    simp [empty, hasDir]
  rw [← hRoot]
  exact (hasDir_foldl_ensureDir paths wellFormed_empty fun _ => rfl).2 l

end FileTree

/-! ## Sessions without a profile -/

namespace Session

open Location in
/-- In the store that a session makes for a user there is no profile of that user. -/
theorem not_contains_profile (home : String) :
    (FileTree.ofDirs ["/bin", "/tmp", home]).contains
      (Registry.dropSlashes home ++ "/.profile") = false := by
  unfold FileTree.contains
  rw [ofText_profilePath, FileTree.hasFile_ofDirs, Bool.false_or]
  refine Bool.eq_false_iff.mpr fun hDir => ?_
  rcases FileTree.hasDir_ofDirs_iff.mp hDir with hRoot | ⟨path, hMem, hWay⟩
  · exact child_ne_root _ _ hRoot
  · have hOther : ∀ dir : String, dir ≠ ".profile" →
        ¬ ((ofText home).child ".profile").IsOnWay ⟨[dir]⟩ := by
      intro dir hNe hWay
      rcases isOnWay_single_iff.mp hWay with hRoot | hSame
      · exact child_ne_root _ _ hRoot
      · have hName : ".profile" = dir := by
          have hNames := congrArg name hSame
          rwa [name_child] at hNames
        exact hNe hName.symm
    simp only [List.mem_cons, List.not_mem_nil, or_false] at hMem
    rcases hMem with rfl | rfl | rfl
    · exact hOther "bin" (by decide) hWay
    · exact hOther "tmp" (by decide) hWay
    · exact not_isOnWay_child _ _ hWay

theorem store_start (env aliases : Table String String) (t : FileTree) :
    (start env aliases t).machine.store = t :=
  rfl

/-- A new session has no events yet. -/
theorem fresh_start (env aliases : Table String String) (t : FileTree) :
    { start env aliases t with machine := { (start env aliases t).machine with trace := #[] } } =
      start env aliases t :=
  rfl

/-- **A session with a store of its own has no profile**, whatever its variables are. -/
theorem not_contains_profilePath (env aliases : Table String String) :
    (start env aliases (ownStore env)).machine.store.contains
      (start env aliases (ownStore env)).profilePath = false := by
  have hHome : ∃ home, (defaultEnv.insertMany env.entries).get? "HOME" = some home := by
    rw [Table.get?_insertMany_entries]
    cases env.get? "HOME" with
    | none => exact ⟨_, rfl⟩
    | some home => exact ⟨home, rfl⟩
  obtain ⟨home, hHome⟩ := hHome
  have hPath : (start env aliases (ownStore env)).profilePath =
      Registry.dropSlashes home ++ "/.profile" := by
    show Registry.dropSlashes (((defaultEnv.insertMany env.entries).get? "HOME").getD "/") ++ _ = _
    rw [hHome, Option.getD_some]
  rw [store_start, hPath, ownStore, hHome, Option.getD_some]
  exact not_contains_profile home

/-- Where there is no profile, none is run. -/
theorem runProfile_of_absent {s : Session FileTree}
    (h : s.machine.store.contains s.profilePath = false) :
    runProfile Cli.shell s = .ok none s := by
  have hAsked : raising (Storage.memory.contains s.profilePath) s.machine.host =
      .ok false s.machine.host := by
    have hHost : s.machine.host.store.contains s.profilePath = false := h
    simp only [raising, Storage.memory_contains, hHost]
  have hFound : onStorage (Cli.shell.storage.contains s.profilePath) s = .ok false s :=
    onMachine_of_ok (Execute.onHost_of_still hAsked)
  unfold runProfile
  exact (bind_of_ok rfl).trans (bind_of_ok hFound)

end Session

/-! ## The program -/

namespace Cli

theorem exists_newSession_eq (settings : Settings) :
    ∃ env, newSession settings = .start env ∅ (Session.ownStore env) :=
  ⟨_, rfl⟩

theorem not_contains_profilePath_newSession (settings : Settings) :
    (newSession settings).machine.store.contains (newSession settings).profilePath = false := by
  obtain ⟨env, hNew⟩ := exists_newSession_eq settings
  rw [hNew]
  exact Session.not_contains_profilePath env ∅

theorem fresh_newSession (settings : Settings) :
    { newSession settings with machine := { (newSession settings).machine with trace := #[] } } =
      newSession settings := by
  obtain ⟨env, hNew⟩ := exists_newSession_eq settings
  rw [hNew]
  exact Session.fresh_start _ _ _

/-- An action that leaves a new session as it is, and has nothing to say: what is written is the
record of its run. -/
theorem act_of_idle {settings : Settings} {action : SessionM FileTree Output}
    (h : action (newSession settings) = .ok {} (newSession settings)) (threshold : Nat) :
    Prompt.act threshold action (openPrompt settings) =
      (writesOfStart threshold settings.selector, openPrompt settings) := by
  have hStart : { (openPrompt settings).session with
      machine := { (openPrompt settings).session.machine with trace := #[] } } =
        newSession settings := fresh_newSession settings
  have hSilent : writesOfTrace threshold (newSession settings) ++ writesOfOutput {} = [] := rfl
  unfold Prompt.act
  simp only [hStart, h, hSilent, List.append_nil]
  rfl

/-- What is written when the profile is looked for: the record of a run. -/
def Options.search (settings : Settings) (o : Options) : List Write :=
  if o.noProfile then [] else writesOfStart (threshold o.debug settings.logLevel) settings.selector

/-- **The prompt is new at the start**, whether the profile is to be run or not. -/
theorem begin_eq (settings : Settings) (o : Options) :
    begin settings o = (o.search settings, openPrompt settings) := by
  have hNone := Session.runProfile_of_absent (not_contains_profilePath_newSession settings)
  have hAction : (do return (← Session.runProfile shell).getD {} : SessionM FileTree Output)
      (newSession settings) = .ok {} (newSession settings) := bind_of_ok hNone
  unfold begin Options.search
  split
  · rfl
  · rw [Prompt.loadProfile, act_of_idle hAction]

/-! ### With the profile and without it -/

/-- A report with some writes before it. -/
def Report.after (before : List Write) (r : Report) : Report :=
  ⟨before ++ r.writes, r.code⟩

namespace Report

variable (code : Int)

theorem stdout_append (before after : List Write) :
    stdout ⟨before ++ after, code⟩ = stdout ⟨before, code⟩ ++ stdout ⟨after, code⟩ := by
  simp [stdout, String.join_append]

/-- A start leaves its record in the log, and prints nothing. -/
theorem stdout_writesOfStart (threshold : Nat) (selector : Option String) :
    stdout ⟨writesOfStart threshold selector, code⟩ = "" := by
  cases selector with
  | none => rfl
  | some selector =>
      simp only [writesOfStart, writesOfRecord]
      split <;> simp [stdout]

theorem stdout_search (settings : Settings) (o : Options) :
    stdout ⟨o.search settings, code⟩ = "" := by
  unfold Options.search
  split
  · rfl
  · exact stdout_writesOfStart _ _ _

/-- Writes that print nothing do not show in what was printed. -/
theorem stdout_after {before : List Write} {r : Report} (h : stdout ⟨before, r.code⟩ = "") :
    (r.after before).stdout = r.stdout := by
  rw [after, stdout_append, h, String.empty_append]

end Report

theorem runLine_eq_after (settings : Settings) (o : Options) (line : String) :
    runLine settings o line =
      (runLine settings { o with noProfile := true } line).after (o.search settings) := by
  simp only [runLine, begin_eq]
  rfl

theorem runPrompt_eq_after (settings : Settings) (o : Options) (inputs : List Input) :
    runPrompt settings o inputs =
      (runPrompt settings { o with noProfile := true } inputs).after (o.search settings) := by
  simp only [runPrompt, begin_eq]
  rfl

/-- What the program writes when it looks for the profile. Where it shows a tree, where it helps
and where it breaks off it does not look. -/
def opening (settings : Settings) (args : List String) : List Write :=
  match readArgs args with
  | .ok (.run o) => if o.parse.isSome then [] else o.search settings
  | _ => []

theorem stdout_opening (settings : Settings) (args : List String) (code : Int) :
    Report.stdout ⟨opening settings args, code⟩ = "" := by
  unfold opening
  split
  · split
    · rfl
    · exact Report.stdout_search _ _ _
  · rfl

/-- Whether the log leaves out the records of the lowest level, as it does unless it is asked
for them. -/
def Settings.HidesDebug (settings : Settings) (args : List String) : Prop :=
  ∀ o, readArgs args = .ok (.run o) →
    Level.debug.rank < threshold o.debug settings.logLevel

theorem writesOfStart_of_lt {threshold : Nat} (h : Level.debug.rank < threshold)
    (selector : Option String) : writesOfStart threshold selector = [] := by
  cases selector with
  | none => rfl
  | some selector => exact if_neg (Nat.not_le_of_lt h)

/-- If the log hides them, the search for the profile leaves nothing. -/
theorem opening_of_hidesDebug {settings : Settings} {args : List String}
    (h : settings.HidesDebug args) : opening settings args = [] := by
  unfold opening
  split
  · rename_i o hArgs
    rw [Options.search, writesOfStart_of_lt (h o hArgs), ite_self, ite_self]
  · rfl

theorem Options.orElse_noProfile (o : Options) :
    o.orElse { noProfile := true } = { o with noProfile := true } := by
  simp [Options.orElse]

/-- **The profile changes what is written first**, and nothing else. -/
theorem program_eq_after (settings : Settings) (args : List String) (inputs : List Input) :
    program args settings inputs =
      (program ("--no-profile" :: args) settings inputs).map
        (Report.after (opening settings args)) := by
  unfold program opening
  rw [readArgs_noProfile_cons]
  rcases readArgs args with e | _ | o
  case error => rfl
  case ok.help => rfl
  case ok.run =>
    simp only [Except.map, Request.orElse, Options.orElse_noProfile]
    rcases o with ⟨_ | ⟨line⟩ | _, _ | value, noProfile, debug⟩
    case none.none => exact congrArg some (runPrompt_eq_after settings _ inputs)
    case some.line.none => exact congrArg some (runLine_eq_after settings _ line)
    all_goals rfl

/-- What was printed, with the status. -/
def Report.printed (r : Report) : String × Int :=
  (r.stdout, r.code)

/-- The record of the search is one of the log, so nothing else shows it. -/
theorem printed_program_noProfile (settings : Settings) (args : List String)
    (inputs : List Input) :
    (program ("--no-profile" :: args) settings inputs).map Report.printed =
      (program args settings inputs).map Report.printed := by
  have hPrinted : ∀ r : Report, (r.after (opening settings args)).printed = r.printed := by
    intro r
    rw [Report.printed, Report.stdout_after (stdout_opening settings args r.code)]
    rfl
  rw [program_eq_after settings args, Option.map_map]
  exact Option.map_congr fun r _ => (hPrinted r).symm

/-! ### Requests that differ in the profile -/

/-- The request without what it says about the profile. -/
def Request.forgetProfile : Request → Request
  | help => help
  | run o => run { o with noProfile := false }

/-- Without the profile, requests are the same if they are but for the profile. -/
theorem orElse_forgetProfile (request : Request) :
    request.forgetProfile.orElse { noProfile := true } = request.orElse { noProfile := true } := by
  cases request with
  | help => rfl
  | run o => simp [Request.orElse, Request.forgetProfile, Options.orElse]

theorem readArgs_noProfile_congr {args args' : List String}
    (h : (readArgs args).map Request.forgetProfile = (readArgs args').map Request.forgetProfile) :
    readArgs ("--no-profile" :: args) = readArgs ("--no-profile" :: args') := by
  have hForgotten : ∀ args, readArgs ("--no-profile" :: args) =
      ((readArgs args).map Request.forgetProfile).map (Request.orElse { noProfile := true }) := by
    intro args
    rw [readArgs_noProfile_cons]
    cases readArgs args with
    | error e => rfl
    | ok request => exact congrArg Except.ok (orElse_forgetProfile request).symm
  rw [hForgotten, hForgotten, h]

theorem hidesDebug_congr {settings : Settings} {args args' : List String}
    (h : (readArgs args).map Request.forgetProfile = (readArgs args').map Request.forgetProfile)
    (hHidden : settings.HidesDebug args) : settings.HidesDebug args' := by
  intro o' hArgs'
  rw [hArgs'] at h
  generalize hArgs : readArgs args = request at h
  rcases request with e | _ | o
  case ok.run =>
    obtain ⟨-, -, -, hDebug⟩ := Options.mk.inj (Request.run.inj (Except.ok.inj h))
    exact hDebug ▸ hHidden o hArgs
  all_goals cases h

theorem program_noProfile_of_hidesDebug {settings : Settings} {args : List String}
    (h : settings.HidesDebug args) (inputs : List Input) :
    program ("--no-profile" :: args) settings inputs = program args settings inputs := by
  have hSame : (Report.after [] : Report → Report) = id := rfl
  rw [program_eq_after settings args, opening_of_hidesDebug h, hSame, Option.map_id]
  rfl

/-- Arguments that ask for the same, but for the profile, lead to the same report. -/
theorem program_congr {settings : Settings} {args args' : List String}
    (h : (readArgs args).map Request.forgetProfile = (readArgs args').map Request.forgetProfile)
    (hHidden : settings.HidesDebug args) (inputs : List Input) :
    program args settings inputs = program args' settings inputs := by
  have hWithout : program ("--no-profile" :: args) settings inputs =
      program ("--no-profile" :: args') settings inputs := by
    unfold program
    rw [readArgs_noProfile_congr h]
  rw [← program_noProfile_of_hidesDebug hHidden, hWithout,
    program_noProfile_of_hidesDebug (hidesDebug_congr h hHidden)]

/--
**The profile cannot be observed.** Whatever the settings of the program are, the text for the
directory of the user among them: in the session that it starts with, there is nothing under the
path of the profile. Arguments that ask for the same, but for the profile, lead to the same
writes and the same status, whichever line is to be run and whatever is entered at the prompt;
and so do any arguments with and without the option to leave the profile out in front of them.
This is so as long as the log hides its lowest level. Whatever it shows, the same is printed, the
status is the same, and the two reports differ by what the search for the profile writes first,
which is a record that does not depend on the profile, the line or the inputs.
-/
theorem profile_unseen (settings : Settings) :
    (newSession settings).machine.store.contains (newSession settings).profilePath = false ∧
    (∀ (args args' : List String) (inputs : List Input),
      (readArgs args).map Request.forgetProfile = (readArgs args').map Request.forgetProfile →
      settings.HidesDebug args → program args settings inputs = program args' settings inputs) ∧
    ∀ (args : List String) (inputs : List Input),
      (settings.HidesDebug args →
        program ("--no-profile" :: args) settings inputs = program args settings inputs) ∧
      (program ("--no-profile" :: args) settings inputs).map Report.printed =
        (program args settings inputs).map Report.printed ∧
      program args settings inputs =
        (program ("--no-profile" :: args) settings inputs).map
          (Report.after (opening settings args)) := by
  refine ⟨not_contains_profilePath_newSession settings, ?_, ?_⟩
  · intro args args' inputs hSame hHidden
    exact program_congr hSame hHidden inputs
  · intro args inputs
    exact ⟨fun hHidden => program_noProfile_of_hidesDebug hHidden inputs,
      printed_program_noProfile settings args inputs, program_eq_after settings args inputs⟩

/-- The settings of a user whose directory is called like the profile, on a way around it. -/
def aroundSettings : Settings :=
  { home := some "x/.profile/../.profile//", selector := some "EpollSelector" }

/-- The option comes last; and where the log shows all, the search for the profile does. -/
theorem profile_unseen_around :
    (newSession aroundSettings).profilePath = "x/.profile/../.profile/.profile" ∧
      (newSession aroundSettings).machine.store.contains
        (newSession aroundSettings).profilePath = false ∧
      (readArgs ["-c", "echo $PWD"]).map Request.forgetProfile =
        (readArgs ["-c", "echo $PWD", "--no-profile"]).map Request.forgetProfile ∧
      aroundSettings.HidesDebug ["-c", "echo $PWD"] ∧
      program ["-c", "echo $PWD"] aroundSettings [] =
        program ["-c", "echo $PWD", "--no-profile"] aroundSettings [] ∧
      program ["--no-profile", "-c", "echo $PWD"] aroundSettings [] =
        program ["-c", "echo $PWD"] aroundSettings [] ∧
      opening aroundSettings ["--debug"] =
        [.err "DEBUG - asyncio - Using selector: EpollSelector\n"] ∧
      (program ["--no-profile", "--debug"] aroundSettings []).map Report.printed =
        (program ["--debug"] aroundSettings []).map Report.printed ∧
      program ["--debug"] aroundSettings [] =
        (program ["--no-profile", "--debug"] aroundSettings []).map
          (Report.after (opening aroundSettings ["--debug"])) := by
  obtain ⟨hAbsent, hSame, hOption⟩ := profile_unseen aroundSettings
  have hArgs : (readArgs ["-c", "echo $PWD"]).map Request.forgetProfile =
      (readArgs ["-c", "echo $PWD", "--no-profile"]).map Request.forgetProfile := by decide +kernel
  have hHidden : aroundSettings.HidesDebug ["-c", "echo $PWD"] := by
    intro o hRun
    have hRead : readArgs ["-c", "echo $PWD"] =
        .ok (.run { command := some (.line "echo $PWD") }) := by decide +kernel
    rw [hRead] at hRun
    obtain rfl := Request.run.inj (Except.ok.inj hRun)
    decide +kernel
  exact ⟨by decide +kernel, hAbsent, hArgs, hHidden, hSame _ _ [] hArgs hHidden,
    (hOption _ []).1 hHidden, by decide +kernel, (hOption _ []).2⟩

end Cli

end MemShell
