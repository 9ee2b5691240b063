import MemShell.Proofs.RaisedSignal
import MemShell.Proofs.RedirectionRule
import MemShell.Proofs.Registrations

/-!
# What a name is said to stand for, and what it runs

`type` looks a name up in a catalogue of names, and running a name looks it up in the
registry. Both are asked about registries that were filled by calls in any order, so both
answers are given here in terms of the calls: the last call for the name, or the last call
for the path that is hit first.

Where a name is searched is said without the list of candidates (`FirstHit`). What is run is
said by the number of the call that brought it (`Dispatches`), for all entries at once: two
calls may bring the same command, and then its runs do not tell the calls apart.

## Main results

* `Registry.find?_eq_some_iff` — the first hit along the search path.
* `Dispatches.unique` — no more than one call is run.
* `Builtin.describe_tells_dispatch` — what is said of a name is what runs.
-/

namespace MemShell

/-! ## The first hit -/

/-- The bare path is hit, or the one with the suffix of programs where the bare one is not. -/
def HitAt (has : String → Prop) (base path : String) : Prop :=
  has path ∧ (path = base ∨ (path = base ++ ".trx" ∧ ¬ has base))

/-- Neither the bare path nor the one with the suffix is hit. -/
def MissedAt (has : String → Prop) (base : String) : Prop :=
  ¬ has base ∧ ¬ has (base ++ ".trx")

/-- The text that the directories are taken from. -/
def IsSearchText (env : Table String String) (text : String) : Prop :=
  (env.get? "PATH" = some text ∧ text ≠ "") ∨
    ((env.get? "PATH" = none ∨ env.get? "PATH" = some "") ∧ text = "/bin")

/-- The first path that a name is found at. A name with a slash is a path itself; any other
name is looked for in the directories between the colons from left to right, without the
empty ones. -/
inductive FirstHit (has : String → Prop) (env : Table String String) (name path : String) : Prop
  | resolved (hSlash : '/' ∈ name.toList) (hHit : HitAt has (resolvePath env name) path)
  | searched {text dir : String} {before after : List String} (hSlash : '/' ∉ name.toList)
      (hText : IsSearchText env text) (hDirs : Text.split ':' text = before ++ dir :: after)
      (hDir : dir ≠ "")
      (hMissed : ∀ d ∈ before, d ≠ "" → MissedAt has (Registry.dropSlashes d ++ "/" ++ name))
      (hHit : HitAt has (Registry.dropSlashes dir ++ "/" ++ name) path)

namespace Registry

variable {α : Type}

theorem isSearchText_iff {env : Table String String} {text : String} :
    IsSearchText env text ↔ env.textOr "PATH" defaultPath = text := by
  unfold IsSearchText Table.textOr
  split
  case h_1 hEmpty =>
    rw [hEmpty]
    constructor
    · rintro (⟨hSame, hSome⟩ | ⟨-, rfl⟩)
      · exact absurd (Option.some.inj hSame).symm hSome
      · rfl
    · exact fun hText => .inr ⟨.inr rfl, hText.symm⟩
  case h_2 hNone =>
    rw [hNone]
    constructor
    · rintro (⟨hSome, -⟩ | ⟨-, rfl⟩)
      · cases hSome
      · rfl
    · exact fun hText => .inr ⟨.inl rfl, hText.symm⟩
  case h_3 value hSome hValue =>
    rw [hValue]
    constructor
    · rintro (⟨hSame, -⟩ | ⟨hNone | hEmpty, -⟩)
      · exact Option.some.inj hSame
      · cases hNone
      · exact (hSome (Option.some.inj hEmpty)).elim
    · rintro rfl
      exact .inl ⟨rfl, hSome⟩

theorem find?_pair_eq_some_iff {has : String → Bool} {base path : String} :
    [base, base ++ programSuffix].find? has = some path ↔ HitAt (has · = true) base path := by
  by_cases hBase : has base = true
  · rw [List.find?_cons_of_pos hBase]
    constructor
    · rintro ⟨⟩
      exact ⟨hBase, .inl rfl⟩
    · rintro ⟨-, rfl | ⟨-, hNot⟩⟩
      · rfl
      · exact absurd hBase hNot
  · rw [List.find?_cons_of_neg hBase]
    constructor
    · intro hFound
      obtain rfl := List.mem_singleton.mp (List.mem_of_find?_eq_some hFound)
      exact ⟨List.find?_some hFound, .inr ⟨rfl, hBase⟩⟩
    · rintro ⟨hHas, rfl | ⟨rfl, -⟩⟩
      · exact absurd hHas hBase
      · exact List.find?_cons_of_pos hHas

theorem find?_pair_eq_none_iff {has : String → Bool} {base : String} :
    [base, base ++ programSuffix].find? has = none ↔ MissedAt (has · = true) base := by
  simp [MissedAt, programSuffix]

/-- The directories are gone through from left to right. -/
theorem find?_flatMap_eq_some_iff {has : String → Bool} (base : String → String) {path : String}
    (pieces : List String) :
    ((pieces.filter (!·.isEmpty)).flatMap fun d => [base d, base d ++ programSuffix]).find? has =
        some path ↔
      ∃ before dir after, pieces = before ++ dir :: after ∧ dir ≠ "" ∧
        (∀ d ∈ before, d ≠ "" → MissedAt (has · = true) (base d)) ∧
          HitAt (has · = true) (base dir) path := by
  induction pieces with
  | nil => simp
  | cons piece pieces ih =>
      by_cases hEmpty : piece = ""
      · rw [List.filter_cons_of_neg (by simp [hEmpty]), ih]
        constructor
        · rintro ⟨before, dir, after, rfl, hDir, hMissed, hHit⟩
          refine ⟨piece :: before, dir, after, rfl, hDir, fun d hMem hSome => ?_, hHit⟩
          rcases List.mem_cons.mp hMem with rfl | hMem
          · exact absurd hEmpty hSome
          · exact hMissed d hMem hSome
        · rintro ⟨before, dir, after, hPieces, hDir, hMissed, hHit⟩
          cases before with
          | nil => exact absurd ((List.cons.inj hPieces).1.symm.trans hEmpty) hDir
          | cons first before =>
              exact ⟨before, dir, after, (List.cons.inj hPieces).2, hDir,
                fun d hMem => hMissed d (List.mem_cons_of_mem first hMem), hHit⟩
      · rw [List.filter_cons_of_pos (by simp [hEmpty]), List.flatMap_cons, List.find?_append,
          Option.or_eq_some_iff, find?_pair_eq_some_iff, find?_pair_eq_none_iff, ih]
        constructor
        · rintro (hHit | ⟨hPiece, before, dir, after, rfl, hDir, hMissed, hHit⟩)
          · exact ⟨[], piece, pieces, rfl, hEmpty, fun _ hMem => absurd hMem List.not_mem_nil, hHit⟩
          · refine ⟨piece :: before, dir, after, rfl, hDir, fun d hMem hSome => ?_, hHit⟩
            rcases List.mem_cons.mp hMem with rfl | hMem
            · exact hPiece
            · exact hMissed d hMem hSome
        · rintro ⟨before, dir, after, hPieces, hDir, hMissed, hHit⟩
          cases before with
          | nil =>
              obtain ⟨rfl, -⟩ := List.cons.inj hPieces
              exact .inl hHit
          | cons first before =>
              obtain ⟨rfl, rfl⟩ := List.cons.inj hPieces
              exact .inr ⟨hMissed _ List.mem_cons_self hEmpty, before, dir, after, rfl, hDir,
                fun d hMem => hMissed d (List.mem_cons_of_mem _ hMem), hHit⟩

/-- **The first hit** is what is found. -/
theorem find?_eq_some_iff {r : Registry α} {env : Table String String} {name path : String} :
    r.find? env name = some path ↔ FirstHit (r.programs.contains · = true) env name path := by
  unfold find? candidates
  by_cases hSlash : '/' ∈ name.toList
  · rw [if_pos hSlash, find?_pair_eq_some_iff]
    constructor
    · exact .resolved hSlash
    · rintro (⟨-, hHit⟩ | ⟨hNot, -⟩)
      · exact hHit
      · exact absurd hSlash hNot
  · rw [if_neg hSlash, searchPath,
      find?_flatMap_eq_some_iff fun d => dropSlashes d ++ "/" ++ name]
    constructor
    · rintro ⟨before, dir, after, hDirs, hDir, hMissed, hHit⟩
      exact .searched hSlash (isSearchText_iff.mpr rfl) hDirs hDir hMissed hHit
    · rintro (⟨hSome, -⟩ | ⟨-, hText, hDirs, hDir, hMissed, hHit⟩)
      · exact absurd hSome hSlash
      · obtain rfl := isSearchText_iff.mp hText
        exact ⟨_, _, _, hDirs, hDir, hMissed, hHit⟩

/-! ## What a filled registry resolves -/

variable {calls : List Registration} {entry : Nat → α} {env : Table String String}
  {name path : String} {i : Nat}

/-- A program has been installed at this path. -/
def Installed (calls : List Registration) (path : String) : Prop :=
  ∃ c ∈ calls, c.Installs path

theorem find?_built_iff :
    (built calls entry).find? env name = some path ↔ FirstHit (Installed calls) env name path := by
  have hSame : ((built calls entry).programs.contains · = true) = Installed calls :=
    funext fun _ => propext contains_programs_built_iff
  rw [find?_eq_some_iff, hSame]

theorem exists_isLast_of_firstHit (h : FirstHit (Installed calls) env name path) :
    ∃ i, IsLast (Registration.Installs path) calls i := by
  rw [exists_isLast_iff]
  cases h with
  | resolved _ hHit => exact hHit.1
  | searched _ _ _ _ _ hHit => exact hHit.1

/-- The last call for a name is what it stands for. -/
theorem resolve_built_of_enters (h : IsLast (Registration.Enters name) calls i) :
    (built calls entry).resolve env name = some (entry i) :=
  resolve_eq_builtin (get?_builtins_built_iff.mpr ⟨i, h, rfl⟩) env

theorem get?_builtins_built_eq_none (h : ¬ ∃ c ∈ calls, c.Enters name) :
    (built calls entry).builtins.get? name = none := by
  rw [← exists_isLast_iff] at h
  cases hGet : (built calls entry).builtins.get? name with
  | none => rfl
  | some a =>
      obtain ⟨i, hLast, -⟩ := get?_builtins_built_iff.mp hGet
      exact absurd ⟨i, hLast⟩ h

/-- Where no call is for the name, the last call for the path that is hit first counts. -/
theorem resolve_built_of_installs (hNone : ¬ ∃ c ∈ calls, c.Enters name)
    (hHit : FirstHit (Installed calls) env name path)
    (h : IsLast (Registration.Installs path) calls i) :
    (built calls entry).resolve env name = some (entry i) := by
  rw [resolve, get?_builtins_built_eq_none hNone, find?_built_iff.mpr hHit]
  exact get?_programs_built_iff.mpr ⟨i, h, rfl⟩

theorem resolve_built_eq_none (hNone : ¬ ∃ c ∈ calls, c.Enters name)
    (hMissed : ∀ path, ¬ FirstHit (Installed calls) env name path) :
    (built calls entry).resolve env name = none := by
  have hFind : (built calls entry).find? env name = none := by
    cases hCase : (built calls entry).find? env name with
    | none => rfl
    | some path => exact absurd (find?_built_iff.mp hCase) (hMissed path)
  rw [resolve, get?_builtins_built_eq_none hNone, hFind]
  rfl

end Registry

/-! ## What is run -/

open Execute Registry

section Runs

variable {σ : Type} {calls : List Registration} {ctx : Context σ} {name path : String}
  {m m' : Machine σ} {i j : Nat}

/-- Running the name, without redirections, calls what call number `i` brought and ends as that
ends, whatever the calls brought. -/
def Dispatches (calls : List Registration) (ctx : Context σ) (name : String) (m : Machine σ)
    (i : Nat) : Prop :=
  ∀ (commands : Nat → Command σ) (args : List String),
    runSimple (built calls commands) ctx ⟨name, args, []⟩ m =
      (dispatch (built calls commands) ctx ⟨name, args, []⟩ (commands i) >>=
        afterAnswer ctx ⟨name, args, []⟩) m

theorem dispatch_bind_eq (registry : Registry (Command σ)) (ctx : Context σ) (c : Simple)
    (command : Command σ) (m : Machine σ) :
    (dispatch registry ctx c command >>= afterAnswer ctx c) m =
      afterAnswer ctx c (answerOf (call registry ctx c command) m.host)
        (called registry ctx c command m) :=
  bind_of_ok (dispatch_eq registry ctx c command m)

theorem dispatches_of_resolve
    (h : ∀ commands : Nat → Command σ,
      (built calls commands).resolve ctx.env name = some (commands i)) (m : Machine σ) :
    Dispatches calls ctx name m i := by
  intro commands args
  have hReady : Ready (built calls commands) ctx ⟨name, args, []⟩ m ctx (commands i) m :=
    ⟨⟨[], .done m, rfl⟩, h commands⟩
  rw [runSimple_of_ready hReady, dispatch_bind_eq]

theorem dispatches_of_enters (h : IsLast (Registration.Enters name) calls i) (m : Machine σ) :
    Dispatches calls ctx name m i :=
  dispatches_of_resolve (fun _ => resolve_built_of_enters h) m

theorem dispatches_of_installs (hNone : ¬ ∃ c ∈ calls, c.Enters name)
    (hHit : FirstHit (Installed calls) ctx.env name path)
    (h : IsLast (Registration.Installs path) calls i) (m : Machine σ) :
    Dispatches calls ctx name m i :=
  dispatches_of_resolve (fun _ => resolve_built_of_installs hNone hHit h) m

/-- **No more than one call is run**: commands that end with the number of their call as their
status tell the calls apart. -/
theorem Dispatches.unique (h : Dispatches calls ctx name m i) (h' : Dispatches calls ctx name m j) :
    i = j := by
  have hSame := (h (fun k => .pure fun _ => { status := k }) []).symm.trans (h' _ [])
  simp only [dispatch_bind_eq] at hSame
  have hStatus : (i : Int) = j := by
    injection hSame with hOutcome
    exact congrArg Outcome.status hOutcome
  exact Int.ofNat.inj hStatus

/-- Without outputs nothing is done once the command has answered. -/
theorem eq_of_afterAnswer {args : List String} {answer : Except Raised (Option Outcome)}
    {o : Outcome} (h : afterAnswer ctx ⟨name, args, []⟩ answer m = .ok o m') : m' = m := by
  match answer with
  | .ok (some result) => injection h with _ hMachine; exact hMachine.symm
  | .ok none => injection h with _ hMachine; exact hMachine.symm
  | .error (.fault fault) => injection h with _ hMachine; exact hMachine.symm
  | .error .interrupt => cases h
  | .error .cancelled => cases h

/-- What is run leaves an entry in the trace. -/
theorem Dispatches.dispatched_ne_nil (h : Dispatches calls ctx name m i)
    {commands : Nat → Command σ} {args : List String} {o : Outcome}
    (hRun : runSimple (built calls commands) ctx ⟨name, args, []⟩ m = .ok o m') :
    dispatched (newEvents m m') ≠ [] := by
  rw [h commands args, dispatch_bind_eq] at hRun
  obtain ⟨es, hSince, hOne⟩ :=
    dispatched_called (built calls commands) ctx ⟨name, args, []⟩ (commands i) m
  rw [eq_of_afterAnswer hRun, hSince.newEvents_eq, hOne]
  exact List.cons_ne_nil _ _

/-- A name that nothing was registered for is not found. -/
theorem runSimple_of_missed (hNone : ¬ ∃ c ∈ calls, c.Enters name)
    (hMissed : ∀ path, ¬ FirstHit (Installed calls) ctx.env name path)
    (commands : Nat → Command σ) (args : List String) (m : Machine σ) :
    runSimple (built calls commands) ctx ⟨name, args, []⟩ m =
      .ok (.failedWith Outcome.notFoundStatus (name ++ ": command not found\n")) m :=
  (RedirectRule.unresolved (.done m) (resolve_built_eq_none hNone hMissed)).runSimple_eq

end Runs

/-! ## What is said -/

namespace Builtin

variable {σ : Type}

/-- What is said of one name. -/
def report (name : String) : Meaning → Outcome
  | .aliased value => .printed (name ++ " is aliased to `" ++ value ++ "'" ++ "\n")
  | .builtin => .printed (name ++ " is a shell builtin" ++ "\n")
  | .program path => .printed (name ++ " is " ++ path ++ "\n")
  | .unknown => .failed ("type: " ++ name ++ ": not found" ++ "\n")

theorem describe_single (ctx : Context σ) (catalogue : Registry Unit) (name : String) :
    describe ⟨[name], ctx, catalogue⟩ = report name (meaning ⟨[name], ctx, catalogue⟩ name) := by
  unfold describe report
  cases hMeaning : meaning ⟨[name], ctx, catalogue⟩ name <;>
    simp [hMeaning, Meaning.text?, Text.asLines, Outcome.withErrors, Outcome.printed,
      Outcome.failed, Outcome.failedWith]

/-- A name that is no alias is a builtin, a program or nothing. -/
theorem meaning_of_not_alias {call : Call σ} {name : String}
    (h : (call.context.aliases.getD ∅).get? name = none) :
    meaning call name =
      if call.catalogue.isBuiltin name then .builtin
      else
        match call.catalogue.find? call.context.env name with
        | some path => .program path
        | none => .unknown := by
  unfold meaning
  split
  · rename_i value hAlias
    rw [h] at hAlias
    cases hAlias
  · rfl

section Said

variable {calls : List Registration} {ctx : Context σ} {name path : String}

theorem describe_of_enters (hAlias : (ctx.aliases.getD ∅).get? name = none)
    (h : ∃ c ∈ calls, c.Enters name) (commands : Nat → Command σ) :
    describe ⟨[name], ctx, (built calls commands).names⟩ = report name .builtin := by
  rw [describe_single, meaning_of_not_alias hAlias]
  simp only [isBuiltin_names, isBuiltin_built_iff.mpr h, if_true]

/-- Where no call is for the name, what is found is what is said. -/
theorem describe_of_find? (hAlias : (ctx.aliases.getD ∅).get? name = none)
    (hNone : ¬ ∃ c ∈ calls, c.Enters name) (commands : Nat → Command σ) {found : Option String}
    (hFound : (built calls commands).find? ctx.env name = found) :
    describe ⟨[name], ctx, (built calls commands).names⟩ =
      report name (found.elim .unknown .program) := by
  have hNot : ¬ (built calls commands).isBuiltin name = true := fun h =>
    hNone (isBuiltin_built_iff.mp h)
  rw [describe_single, meaning_of_not_alias hAlias]
  simp only [isBuiltin_names, find?_names, hNot, hFound]
  cases found <;> rfl

theorem printed_ne_failed (text message : String) : Outcome.printed text ≠ .failed message := by
  intro h
  have hStatus := congrArg Outcome.status h
  simp [Outcome.printed, Outcome.failed, Outcome.failedWith] at hStatus

/-- Only one path could be taken for the word that stands for builtins. -/
theorem printed_path_eq_builtin_iff (name path : String) :
    Outcome.printed (name ++ " is " ++ path ++ "\n") =
        .printed (name ++ " is a shell builtin" ++ "\n") ↔ path = "a shell builtin" := by
  have hWord : name ++ " is a shell builtin" = name ++ " is " ++ "a shell builtin" := by
    rw [String.append_assoc]
    rfl
  simp [Outcome.printed, hWord]

theorem printed_path_injective {path' : String}
    (h : Outcome.printed (name ++ " is " ++ path ++ "\n") =
      .printed (name ++ " is " ++ path' ++ "\n")) : path = path' := by
  simpa [Outcome.printed] using h

theorem startsWith_of_firstHit {env : Table String String}
    (h : FirstHit (Installed calls) env name path) : path.startsWith "/" = true := by
  obtain ⟨i, hLast⟩ := exists_isLast_of_firstHit h
  have hThere : (built calls fun _ => ()).programs.contains path = true :=
    contains_programs_built_iff.mpr (exists_isLast_iff.mp ⟨i, hLast⟩)
  exact startsWith_of_contains_programs hThere

end Said

/-- **What is said of a name is what runs**, for a name that is no alias. It is said to be a
builtin exactly if it runs what the last call for this name brought; a path is said exactly if
it runs what the last call for this path brought and the path is hit first; and it is said not
to be found exactly if running it ends with status 127 and nothing is called. (A path could not
be told from the words for a builtin if it were those words; paths start with a slash.) -/
theorem describe_tells_dispatch (calls : List Registration) (ctx : Context σ) (name : String)
    (hAlias : (ctx.aliases.getD ∅).get? name = none) (commands : Nat → Command σ)
    (args : List String) (m : Machine σ) :
    (describe ⟨[name], ctx, (built calls commands).names⟩ =
        .printed (name ++ " is a shell builtin" ++ "\n") ↔
      ∃ i, IsLast (Registration.Enters name) calls i ∧ Dispatches calls ctx name m i) ∧
    (∀ path, path ≠ "a shell builtin" →
      (describe ⟨[name], ctx, (built calls commands).names⟩ =
          .printed (name ++ " is " ++ path ++ "\n") ↔
        ∃ i, IsLast (Registration.Installs path) calls i ∧ Dispatches calls ctx name m i ∧
          FirstHit (Installed calls) ctx.env name path)) ∧
    (describe ⟨[name], ctx, (built calls commands).names⟩ =
        .failed ("type: " ++ name ++ ": not found" ++ "\n") ↔
      ∃ o m', runSimple (built calls commands) ctx ⟨name, args, []⟩ m = .ok o m' ∧
        o.status = 127 ∧ dispatched (newEvents m m') = []) := by
  by_cases hEnters : ∃ c ∈ calls, c.Enters name
  · obtain ⟨j, hLast⟩ := exists_isLast_iff.mpr hEnters
    have hRuns : Dispatches calls ctx name m j := dispatches_of_enters hLast m
    rw [describe_of_enters hAlias hEnters]
    refine ⟨iff_of_true rfl ⟨j, hLast, hRuns⟩, fun path hPath => iff_of_false (fun hSaid => ?_) ?_,
      iff_of_false (printed_ne_failed _ _) ?_⟩
    · exact hPath ((printed_path_eq_builtin_iff name path).mp hSaid.symm)
    · rintro ⟨i, hInstall, hRuns', -⟩
      obtain rfl := hRuns'.unique hRuns
      exact Registration.not_isLast_installs hLast path hInstall
    · rintro ⟨o, m', hRun, -, hQuiet⟩
      exact hRuns.dispatched_ne_nil hRun hQuiet
  by_cases hHits : ∃ path, FirstHit (Installed calls) ctx.env name path
  · obtain ⟨found, hHit⟩ := hHits
    obtain ⟨i, hLast⟩ := exists_isLast_of_firstHit hHit
    have hRuns := dispatches_of_installs hEnters hHit hLast m
    rw [describe_of_find? hAlias hEnters commands (find?_built_iff.mpr hHit)]
    refine ⟨iff_of_false (fun hSaid => ?_) fun ⟨j, hEntered, _⟩ => ?_, fun path _ =>
      ⟨fun hSaid => ?_, fun ⟨_, _, _, hHit'⟩ => ?_⟩, iff_of_false (printed_ne_failed _ _) ?_⟩
    · have hWord := (printed_path_eq_builtin_iff name found).mp hSaid
      exact absurd (hWord ▸ startsWith_of_firstHit hHit) (by decide +kernel)
    · exact hEnters (exists_isLast_iff.mp ⟨j, hEntered⟩)
    · obtain rfl := printed_path_injective hSaid
      exact ⟨i, hLast, hRuns, hHit⟩
    · have hFound : (built calls commands).find? ctx.env name = some found :=
        find?_built_iff.mpr hHit
      obtain rfl := Option.some.inj (hFound.symm.trans (find?_built_iff.mpr hHit'))
      rfl
    · rintro ⟨o, m', hRun, -, hQuiet⟩
      exact hRuns.dispatched_ne_nil hRun hQuiet
  · have hMissed : ∀ path, ¬ FirstHit (Installed calls) ctx.env name path :=
      not_exists.mp hHits
    have hFind : (built calls commands).find? ctx.env name = none :=
      Option.eq_none_iff_forall_ne_some.mpr fun path hFound =>
        hMissed path (find?_built_iff.mp hFound)
    rw [describe_of_find? hAlias hEnters commands hFind]
    refine ⟨iff_of_false (printed_ne_failed _ _).symm fun ⟨j, hEntered, _⟩ => ?_, fun path _ =>
      iff_of_false (printed_ne_failed _ _).symm fun ⟨_, _, _, hHit⟩ => hMissed path hHit,
      iff_of_true rfl ⟨_, m, runSimple_of_missed hEnters hMissed commands args m, rfl, ?_⟩⟩
    · exact hEnters (exists_isLast_iff.mp ⟨j, hEntered⟩)
    · rw [(Since.refl m).newEvents_eq]
      rfl

/-- A program behind a directory that comes first, one behind a later directory, and a builtin
that was registered twice. -/
def mixedCalls : List Registration :=
  [.install "/bin/x", .add "ls", .install "/opt//x.trx", .builtin ["dir", "ls"]]

def mixedContext : Context Unit where
  env := Table.insert ∅ "PATH" ":/opt:/bin"

/-- Each command ends with the number of its call. -/
def mixedCommands (i : Nat) : Command Unit :=
  .pure fun _ => { status := i }

theorem describe_tells_dispatch_mixedCalls :
    (∃ i, IsLast (Registration.Enters "ls") mixedCalls i ∧
      Dispatches mixedCalls mixedContext "ls" ⟨(), none, #[]⟩ i) ∧
    (∃ i, IsLast (Registration.Installs "/opt/x.trx") mixedCalls i ∧
      Dispatches mixedCalls mixedContext "x" ⟨(), none, #[]⟩ i ∧
        FirstHit (Installed mixedCalls) mixedContext.env "x" "/opt/x.trx") ∧
    ∃ o m', runSimple (built mixedCalls mixedCommands) mixedContext ⟨"y", [], []⟩
        ⟨(), none, #[]⟩ = .ok o m' ∧
      o.status = 127 ∧ dispatched (newEvents ⟨(), none, #[]⟩ m') = [] := by
  obtain ⟨hBuiltin, -, -⟩ := describe_tells_dispatch mixedCalls mixedContext "ls" rfl
    mixedCommands [] ⟨(), none, #[]⟩
  obtain ⟨-, hProgram, -⟩ := describe_tells_dispatch mixedCalls mixedContext "x" rfl
    mixedCommands [] ⟨(), none, #[]⟩
  obtain ⟨-, -, hUnknown⟩ := describe_tells_dispatch mixedCalls mixedContext "y" rfl
    mixedCommands [] ⟨(), none, #[]⟩
  exact ⟨hBuiltin.mp (by decide +kernel),
    (hProgram "/opt/x.trx" (by decide)).mp (by decide +kernel), hUnknown.mp (by decide +kernel)⟩

end Builtin

end MemShell
