import Mathlib.Algebra.Ring.Nat
import MemShell.Proofs.CoreQuestions
import MemShell.Proofs.PipelineParts
import MemShell.Proofs.SingleCommands
import MemShell.Proofs.StoreTrees

/-!
# Counting files one by one and together

`wc` with several names counts each file and adds a row with the totals; `cat` with the same
names puts the files together, and `wc` at the end of a pipeline counts what it is handed. The
two ways of counting agree in the lines and in the characters, because a line feed and a
character belong to one file each. They need not agree in the words. Where a file ends inside
a word and the next one starts inside a word, the two are one word in the text that `cat`
prints. This can happen at each place where two files meet, and nothing worse can: putting one
more text in front loses one word at most (`Text.length_wordsFrom_append`), whatever the texts are
made of, so fewer words are lost than there are files.

Reading is the same for all of this. The store in memory is asked for each name in turn and
gives the same answers at both times, and what it answers settles what is printed
(`readFiles_eq`).

## Main results

* `Counts.agree_join` — the counts of texts one by one and together.
* `readFiles_eq`, `wc_eq` — what a list of names leads to, the unreadable ones included.
* `wc_agrees_with_cat` — the row with the totals, against the pipeline and against the rows
  above it.
-/

namespace MemShell

/-! ## Words of a text in two parts -/

namespace Text

/-- How many words there are does not depend on the letters of the word that is open. -/
theorem length_wordsFrom_eq {acc acc' : List Char} (h : acc ≠ []) (h' : acc' ≠ [])
    (cs : List Char) : (wordsFrom acc cs).length = (wordsFrom acc' cs).length := by
  induction cs generalizing acc acc' with
  | nil => simp [wordsFrom, h, h']
  | cons c cs ih =>
      cases hBlank : isBlank c with
      | true => simp [wordsFrom, hBlank, h, h']
      | false =>
          simpa [wordsFrom, hBlank] using ih (List.cons_ne_nil c acc) (List.cons_ne_nil c acc')

/-- An open word is one word more, unless it goes on with the first word of what follows. -/
theorem length_wordsFrom_of_open {acc : List Char} (h : acc ≠ []) (cs : List Char) :
    (wordsFrom acc cs).length ≤ (words cs).length + 1 ∧
      (words cs).length ≤ (wordsFrom acc cs).length := by
  cases cs with
  | nil => simp [words, wordsFrom, h]
  | cons c cs =>
      cases hBlank : isBlank c with
      | true => simp [words, wordsFrom, hBlank, h]
      | false =>
          have hSame : (wordsFrom (c :: acc) cs).length = (wordsFrom [c] cs).length :=
            length_wordsFrom_eq (List.cons_ne_nil c acc) (List.cons_ne_nil c []) cs
          simp [words, wordsFrom, hBlank, hSame]

/-- Two texts have at most as many words together as one by one, and at most one less. -/
theorem length_wordsFrom_append (cs ds : List Char) : ∀ acc : List Char,
    (wordsFrom acc (cs ++ ds)).length ≤ (wordsFrom acc cs).length + (words ds).length ∧
      (wordsFrom acc cs).length + (words ds).length ≤ (wordsFrom acc (cs ++ ds)).length + 1 := by
  induction cs with
  | nil =>
      intro acc
      by_cases hOpen : acc = []
      · subst hOpen
        simp [words, wordsFrom]
      · have hNil : (wordsFrom acc []).length = 1 := by simp [wordsFrom, hOpen]
        obtain ⟨hLe, hGe⟩ := length_wordsFrom_of_open hOpen ds
        rw [List.nil_append, hNil]
        omega
  | cons c cs ih =>
      intro acc
      cases hBlank : isBlank c with
      | false => simpa [wordsFrom, hBlank] using ih (c :: acc)
      | true =>
          have hRest := ih []
          by_cases hOpen : acc = []
          · simpa [wordsFrom, hBlank, hOpen] using hRest
          · simp only [List.cons_append, wordsFrom, hBlank, hOpen, List.isEmpty_iff, if_true,
              if_false, List.length_cons]
            omega

end Text

/-! ## Counts -/

namespace Builtin

namespace Counts

theorem words_append (s t : String) :
    (ofText (s ++ t)).words ≤ (ofText s).words + (ofText t).words ∧
      (ofText s).words + (ofText t).words ≤ (ofText (s ++ t)).words + 1 := by
  have hParts := Text.length_wordsFrom_append s.toList t.toList []
  simpa only [ofText, String.toList_append, Text.words] using hParts

theorem lines_append (s t : String) :
    (ofText (s ++ t)).lines = (ofText s).lines + (ofText t).lines := by
  simp [ofText, List.count_append]

theorem chars_append (s t : String) :
    (ofText (s ++ t)).chars = (ofText s).chars + (ofText t).chars :=
  String.length_append s t

theorem foldl_add (counts : List Counts) : ∀ start : Counts,
    counts.foldl add start = start.add (total counts) := by
  induction counts with
  | nil => exact fun start => rfl
  | cons first counts ih =>
      intro start
      rw [total, List.foldl_cons, List.foldl_cons, ih, ih]
      simp only [add, zero, Nat.zero_add, Nat.add_assoc]

theorem total_cons (first : Counts) (counts : List Counts) :
    total (first :: counts) = first.add (total counts) := by
  rw [total, List.foldl_cons, foldl_add]
  simp only [add, zero, Nat.zero_add]

/--
**One by one and together.** The lines and characters of texts add up to those of the text
that they form. The words do too, but for one at each place where two texts meet.
-/
theorem agree_join (texts : List String) :
    let together := ofText (String.join texts)
    let apart := total (texts.map ofText)
    together.lines = apart.lines ∧ together.chars = apart.chars ∧
      together.words ≤ apart.words ∧ apart.words ≤ together.words + (texts.length - 1) := by
  induction texts with
  | nil => decide
  | cons text texts ih =>
      obtain ⟨hLines, hChars, hLe, hGe⟩ := ih
      obtain ⟨hFewer, hMore⟩ := words_append text (String.join texts)
      simp only [String.join_cons, List.map_cons, total_cons, lines_append, chars_append, add,
        List.length_cons]
      refine ⟨by rw [hLines], by rw [hChars], by omega, ?_⟩
      cases texts with
      | nil =>
          -- nothing follows, so no word can be lost
          have hNone : (ofText (text ++ String.join [])).words = (ofText text).words := by
            rw [String.join_nil, String.append_empty]
          rw [hNone]
          exact Nat.le_refl _
      | cons next texts =>
          rw [List.length_cons] at hGe ⊢
          omega

end Counts

/-! ## Rows -/

namespace Columns

/-- The counts that are shown, in the order in which they are shown. -/
def shown (c : Columns) (counts : Counts) : List Nat :=
  (if c.lines then [counts.lines] else []) ++ (if c.words then [counts.words] else []) ++
    (if c.chars then [counts.chars] else [])

/-- A row is made of the counts that are shown and the label. -/
theorem row_eq (c : Columns) (counts : Counts) (label : String) :
    c.row counts label = " ".intercalate
      ((c.shown counts).map toString ++ if label.isEmpty then [] else [label]) := by
  obtain ⟨lines, words, chars⟩ := c
  cases lines <;> cases words <;> cases chars <;> rfl

/-- Adding counts adds up each column. -/
theorem getD_shown_add (c : Columns) (a b : Counts) (i : Nat) :
    (c.shown (a.add b)).getD i 0 = (c.shown a).getD i 0 + (c.shown b).getD i 0 := by
  obtain ⟨lines, words, chars⟩ := c
  rcases i with _ | _ | _ | i <;> cases lines <;> cases words <;> cases chars <;> rfl

theorem getD_shown_zero (c : Columns) (i : Nat) : (c.shown .zero).getD i 0 = 0 := by
  obtain ⟨lines, words, chars⟩ := c
  rcases i with _ | _ | _ | i <;> cases lines <;> cases words <;> cases chars <;> rfl

theorem getD_shown_total (c : Columns) (counts : List Counts) (i : Nat) :
    (c.shown (.total counts)).getD i 0 = (counts.map fun a => (c.shown a).getD i 0).sum := by
  induction counts with
  | nil => exact getD_shown_zero c i
  | cons first counts ih =>
      rw [Counts.total_cons, getD_shown_add, ih, List.map_cons, List.sum_cons]

end Columns

/-! ## Reading files one after the other -/

/-- What was found under names, and a message for each name under which nothing was found. -/
def collected {α : Type} (command : String) (answer : String → Except Fault α)
    (names : List String) : Collected α where
  items := names.filterMap fun name => (answer name).toOption
  errors := names.filterMap fun name =>
    match answer name with
    | .ok _ => none
    | .error fault => some (command ++ ": " ++ name ++ ": " ++ fault.message)

section Collected

variable {α : Type} {command name : String} {answer : String → Except Fault α}

theorem collected_cons_of_ok {item : α} (h : answer name = .ok item) (names : List String) :
    collected command answer (name :: names) =
      { collected command answer names with
        items := item :: (collected command answer names).items } := by
  simp [collected, h, Except.toOption]

theorem collected_cons_of_error {fault : Fault} (h : answer name = .error fault)
    (names : List String) :
    collected command answer (name :: names) =
      { collected command answer names with
        errors := (command ++ ": " ++ name ++ ": " ++ fault.message) ::
          (collected command answer names).errors } := by
  simp [collected, h, Except.toOption]

end Collected

/-- Reading that only asks comes to the answers. -/
theorem readFiles_eq {α : Type} (command : String) {read : String → HostM Fault FileTree α}
    {answer : String → Except Fault α} {h : Host FileTree} (names : List String)
    (hRead : ∀ name ∈ names, read name h = reply (answer name) h) :
    readFiles command read names h = .ok (collected command answer names) h := by
  induction names with
  | nil => rfl
  | cons name names ih =>
      obtain ⟨hFirst, hRest⟩ := List.forall_mem_cons.mp hRead
      have hAttempt : (attempt (read name) : HostM Fault FileTree (Except Fault α)) h =
          .ok (answer name) h := by
        unfold attempt
        rw [hFirst]
        cases answer name <;> rfl
      rw [readFiles, bind_of_ok hAttempt, bind_of_ok (ih hRest)]
      cases hAnswer : answer name with
      | ok item =>
          rw [collected_cons_of_ok hAnswer]
          rfl
      | error fault =>
          rw [collected_cons_of_error hAnswer]
          rfl

/-- Where everything is found, nothing is missed. -/
theorem collected_of_ok {α : Type} (command : String) {answer : String → Except Fault α}
    {found : String → α} {names : List String}
    (h : ∀ name ∈ names, answer name = .ok (found name)) :
    collected command answer names = ⟨names.map found, []⟩ := by
  induction names with
  | nil => rfl
  | cons name names ih =>
      obtain ⟨hFirst, hRest⟩ := List.forall_mem_cons.mp h
      rw [collected_cons_of_ok hFirst, ih hRest, List.map_cons]

/-! ## The two commands -/

section Commands

variable {ctx : Context FileTree}

/-- What the store answers when a file is named on the command line. -/
def fileText (ctx : Context FileTree) (t : FileTree) (name : String) : Except Fault String :=
  t.read (ctx.resolve name)

theorem readFile_eq (hMemory : ctx.storage = some Storage.memory) (name : String)
    (h : Host FileTree) : ctx.readFile name h = reply (fileText ctx h.store name) h := by
  simp only [Context.readFile, hMemory, Storage.memory_read, fileText]
  cases h.store.read (ctx.resolve name) <;> rfl

/-- What `wc` finds under a name: the counts of the file, and the name as a label. -/
def fileCounts (ctx : Context FileTree) (t : FileTree) (name : String) :
    Except Fault (Counts × String) :=
  (fileText ctx t name).map fun text => (Counts.ofText text, name)

/-- **What `wc` does with names**: it prints the rows of the files that it finds, and says which
names led to none. -/
theorem wc_eq (hMemory : ctx.storage = some Storage.memory) {args names : List String}
    {asked : Columns} (hArgs : wcOptions {} args = .ok (asked, names)) (hSome : names ≠ [])
    (h : Host FileTree) :
    let files := collected "wc" (fileCounts ctx h.store) names
    wc args ctx h =
      .ok (.withErrors (Text.asLines (asked.orAll.rows files.items)) files.errors {}) h := by
  intro files
  have hFiles : readFiles "wc" (fun name => do
      let text ← ctx.readFile name
      return (Counts.ofText text, name)) names h = .ok files h := by
    refine readFiles_eq "wc" names fun name _ => ?_
    have hRead := readFile_eq hMemory name h
    unfold fileCounts
    cases hText : fileText ctx h.store name with
    | ok text =>
        rw [hText] at hRead
        exact bind_of_ok hRead
    | error fault =>
        rw [hText] at hRead
        exact bind_of_error hRead
  unfold wc
  simp only [hArgs, List.isEmpty_iff, hSome, if_false]
  exact bind_of_ok hFiles

/-- What `cat` finds under a name; under a dash it finds its input. -/
def catText (ctx : Context FileTree) (t : FileTree) (name : String) : Except Fault String :=
  if name = "-" then .ok ctx.stdin else fileText ctx t name

/-- **What `cat` does with names**: it prints the files that it finds, one after the other. -/
theorem cat_eq (hMemory : ctx.storage = some Storage.memory) {names : List String}
    (hSome : names ≠ []) (h : Host FileTree) :
    let files := collected "cat" (catText ctx h.store) names
    cat names ctx h = .ok (.withErrors (String.join files.items) files.errors {}) h := by
  intro files
  have hFiles : readFiles "cat" (fun name =>
      if name = "-" then pure ctx.stdin else ctx.readFile name) names h = .ok files h := by
    refine readFiles_eq "cat" names fun name _ => ?_
    unfold catText
    split
    · rfl
    · exact readFile_eq hMemory name h
  unfold cat
  simp only [List.isEmpty_iff, hSome, if_false]
  exact bind_of_ok hFiles

theorem wcOptions_names {names : List String} (h : ∀ name ∈ names, name.toList.head? ≠ some '-')
    (columns : Columns) : wcOptions columns names = .ok (columns, names) := by
  induction names with
  | nil => rfl
  | cons name names ih =>
      obtain ⟨hFirst, hRest⟩ := List.forall_mem_cons.mp h
      have hNotLong : wcLong? name = none := by
        unfold wcLong?
        split
        all_goals first | rfl | exact absurd rfl hFirst
      cases hChars : name.toList with
      | nil => simp [wcOptions, hNotLong, hChars, ih hRest, Except.map]
      | cons c cs =>
          have hDash : c ≠ '-' := by
            rintro rfl
            exact hFirst (by rw [hChars]; rfl)
          simp [wcOptions, hNotLong, hChars, hDash, ih hRest, Except.map]

end Commands

end Builtin

/-! ## A pipeline of two commands -/

/-- Commands that leave the host as it is: the second sees what the first hands over, and its
texts and status count. -/
theorem Execute.run_pipeline_pair {σ : Type} {registry : Registry (Command σ)} {ctx : Context σ}
    {m : Machine σ} (hDown : m.isStopped = false) {name name' : String}
    {command command' : Command σ} {args args' : List String} {o o' : Outcome}
    (hName : registry.builtins.get? name = some command)
    (hName' : registry.builtins.get? name' = some command')
    (hAnswer : command ⟨args, ctx, registry.names⟩ m.host = .ok (some o) m.host)
    (hAnswer' : command' ⟨args', { ctx with stdin := handOver o }, registry.names⟩ m.host =
      .ok (some o') m.host) :
    ∃ m' : Machine σ, m'.store = m.store ∧
      run registry ctx (.pipeline [⟨name, args, []⟩, ⟨name', args', []⟩]) m =
        .ok { o' with changes := (Changes.merge {} o.changes).merge o'.changes } m' := by
  obtain ⟨m₁, hStore, hSignal, hFirst⟩ := Session.runSimple_of_answer args hName hAnswer
  let m₂ := m₁.log (.stageEnded 1 2 name o.status)
  have hHost : m₂.host = m.host := by
    show (⟨m₁.store, m₁.signal, #[]⟩ : Host σ) = ⟨m.store, m.signal, #[]⟩
    rw [hStore, hSignal]
  have hDown₂ : m₂.isStopped = false := (isStopped_congr hSignal).trans hDown
  rw [← hHost] at hAnswer'
  obtain ⟨m₃, hStore', -, hSecond⟩ := Session.runSimple_of_answer args' hName' hAnswer'
  refine ⟨m₃, hStore'.trans hStore, ?_⟩
  refine (run_pipeline_of_not_isStopped hDown _ ctx.stdin).trans ?_
  rw [runStages_cons_of_not_isStopped hDown]
  refine (bind_of_ok hFirst).trans ?_
  refine (bind_of_ok (t := m₂) rfl).trans ?_
  rw [runStages_cons_of_not_isStopped hDown₂]
  exact (bind_of_ok hSecond).trans (bind_of_ok rfl)

namespace Builtin

/-! ## The two ways of counting -/

section Agreement

variable {ctx : Context FileTree}

/-- A command that gives an outcome on the host gives it to whoever runs it. -/
theorem ofHost_of_ok {σ : Type} {f : Call σ → HostM Fault σ Outcome} {call : Call σ}
    {h h' : Host σ} {o : Outcome} (hRun : f call h = .ok o h') :
    Command.ofHost f call h = .ok (some o) h' := by
  have hRaised : raising (f call) h = .ok o h' := by
    unfold raising
    rw [hRun]
  show (some <$> raising (f call)) h = _
  rw [← bind_pure_comp, bind_of_ok hRaised]
  rfl

/-- Without names `wc` counts its input. -/
theorem wc_input (ctx : Context FileTree) (h : Host FileTree) :
    wc [] ctx h = .ok (.printed (Columns.all.row (.ofText ctx.stdin) "" ++ "\n")) h :=
  rfl

theorem withErrors_nil (text : String) : Outcome.withErrors text [] {} = .printed text :=
  rfl

section Readable

variable {names : List String} {text : String → String}

/-- Where every name leads to a file, `wc` prints all rows and no message. -/
theorem wc_of_readable (hMemory : ctx.storage = some Storage.memory) (hSome : names ≠ [])
    (hPlain : ∀ name ∈ names, name.toList.head? ≠ some '-') {h : Host FileTree}
    (hText : ∀ name ∈ names, fileText ctx h.store name = .ok (text name)) :
    wc names ctx h = .ok (.printed (Text.asLines
      (Columns.all.rows (names.map fun name => (Counts.ofText (text name), name))))) h := by
  have hCounts : ∀ name ∈ names,
      fileCounts ctx h.store name = .ok (Counts.ofText (text name), name) := by
    intro name hMem
    rw [fileCounts, hText name hMem]
    rfl
  refine (wc_eq hMemory (wcOptions_names hPlain {}) hSome h).trans ?_
  rw [collected_of_ok "wc" hCounts, withErrors_nil]
  rfl

/-- Where every name leads to a file, `cat` piped into `wc` counts the files together. -/
theorem run_cat_wc (hMemory : ctx.storage = some Storage.memory) (hSome : names ≠ [])
    (hPlain : ∀ name ∈ names, name.toList.head? ≠ some '-') {m : Machine FileTree}
    (hDown : m.isStopped = false)
    (hText : ∀ name ∈ names, fileText ctx m.store name = .ok (text name)) :
    ∃ m' : Machine FileTree, m'.store = m.store ∧
      Execute.run registry ctx (.pipeline [⟨"cat", names, []⟩, ⟨"wc", [], []⟩]) m =
        .ok (.printed (Columns.all.row (.ofText (String.join (names.map text))) "" ++ "\n")) m' := by
  have hTexts : ∀ name ∈ names, catText ctx m.host.store name = .ok (text name) := by
    intro name hMem
    have hDash : name ≠ "-" := by
      rintro rfl
      exact hPlain "-" hMem rfl
    rw [catText, if_neg hDash]
    exact hText name hMem
  have hCat : cat names ctx m.host = .ok (.printed (String.join (names.map text))) m.host := by
    refine (cat_eq hMemory hSome m.host).trans ?_
    rw [collected_of_ok "cat" hTexts, withErrors_nil]
  have hFirst : registry.builtins.get? "cat" =
      some (.ofHost fun call : Call FileTree => cat call.args call.context) := rfl
  have hSecond : registry.builtins.get? "wc" =
      some (.ofHost fun call : Call FileTree => wc call.args call.context) := rfl
  exact Execute.run_pipeline_pair hDown hFirst hSecond (ofHost_of_ok hCat)
    (ofHost_of_ok (wc_input _ m.host))

end Readable

/--
**Counting files one by one and together.** Let the store be kept in memory, and let the
signal be down.

Where each of two or more names, none of which starts with a dash, leads to a file, `wc` prints
a last row with totals; and `cat` with these names, piped into `wc`, prints the same numbers of
lines and characters, and a number of words that is not larger, and smaller by less than there
are names.

With whatever options `wc` is called, and whether all names lead to files or not, it prints the
counts that are asked for, in the order of lines, words and characters; and if it prints several
rows, one more follows, which has in each column the sum of what is above.
-/
theorem wc_agrees_with_cat (hMemory : ctx.storage = some Storage.memory) {m : Machine FileTree}
    (hDown : m.isStopped = false) :
    (∀ names : List String, 2 ≤ names.length →
      (∀ name ∈ names, name.toList.head? ≠ some '-' ∧
        ∃ text, m.store.read (ctx.resolve name) = .ok text) →
      ∃ (above : List String) (total together : Counts) (m' : Machine FileTree),
        wc names ctx m.host = .ok (.printed (Text.asLines
          (above ++ [Columns.all.row total "total"]))) m.host ∧
        Execute.run registry ctx (.pipeline [⟨"cat", names, []⟩, ⟨"wc", [], []⟩]) m =
          .ok (.printed (Columns.all.row together "" ++ "\n")) m' ∧
        together.lines = total.lines ∧ together.chars = total.chars ∧
        together.words ≤ total.words ∧ total.words ≤ together.words + (names.length - 1)) ∧
    (∀ (args names : List String) (asked : Columns),
      wcOptions {} args = .ok (asked, names) → names ≠ [] →
      let columns := asked.orAll
      let files := collected "wc" (fileCounts ctx m.store) names
      let above := files.items.map fun (counts, name) => columns.row counts name
      ∃ total : Counts,
        wc args ctx m.host = .ok (.withErrors (Text.asLines
          (above ++ if 1 < above.length then [columns.row total "total"] else []))
          files.errors {}) m.host ∧
        ∀ i, (columns.shown total).getD i 0 =
          (files.items.map fun (counts, _) => (columns.shown counts).getD i 0).sum) ∧
    ∀ (columns : Columns) (counts : Counts) (label : String),
      columns.row counts label = " ".intercalate
        ((columns.shown counts).map toString ++ if label.isEmpty then [] else [label]) := by
  refine ⟨?_, ?_, Columns.row_eq⟩
  · intro names hTwo hNames
    have hSome : names ≠ [] := List.ne_nil_of_length_pos (by omega)
    have hPlain : ∀ name ∈ names, name.toList.head? ≠ some '-' := fun name hMem =>
      (hNames name hMem).1
    choose! text hText using fun name hMem => (hNames name hMem).2
    have hWc := wc_of_readable (h := m.host) hMemory hSome hPlain hText
    obtain ⟨m', -, hRun⟩ := run_cat_wc hMemory hSome hPlain hDown hText
    have hSeveral : 1 < (names.map fun name => (Counts.ofText (text name), name)).length := by
      rw [List.length_map]
      exact hTwo
    have hCounts : (names.map fun name => (Counts.ofText (text name), name)).map Prod.fst =
        (names.map text).map Counts.ofText := by
      rw [List.map_map, List.map_map]
      rfl
    have hAgree := Counts.agree_join (names.map text)
    rw [Columns.rows, if_pos hSeveral, hCounts] at hWc
    rw [List.length_map] at hAgree
    exact ⟨_, _, _, m', hWc, hRun, hAgree⟩
  · intro args names asked hArgs hSome columns files above
    refine ⟨.total (files.items.map Prod.fst), ?_, fun i => ?_⟩
    · have hLength : above.length = files.items.length := List.length_map _
      rw [hLength]
      exact wc_eq hMemory hArgs hSome m.host
    · rw [Columns.getD_shown_total, List.map_map]
      rfl

end Agreement

/-- Two files in the directory for temporary files; the first ends inside a word, and the second
starts inside one. -/
def meetingFiles : FileTree :=
  (FileTree.ofDirs ["/tmp"]).afterAll [.write "/tmp/a" "x y", .write "/tmp/b" "z\n"]

/-- What a command sees of them. -/
def meetingContext : Context FileTree :=
  { env := .ofList [("PWD", "/tmp")], storage := some Storage.memory }

/-- The files have three words one by one and two together; and with the options `-cl` the words
are left out. -/
theorem wc_agrees_with_cat_meeting :
    (∃ (above : List String) (total together : Counts) (m' : Machine FileTree),
      wc ["a", "b"] meetingContext ⟨meetingFiles, none, #[]⟩ =
        .ok (.printed (Text.asLines (above ++ [Columns.all.row total "total"])))
          ⟨meetingFiles, none, #[]⟩ ∧
      Execute.run registry meetingContext (.pipeline [⟨"cat", ["a", "b"], []⟩, ⟨"wc", [], []⟩])
        { store := meetingFiles } = .ok (.printed (Columns.all.row together "" ++ "\n")) m' ∧
      together.lines = total.lines ∧ together.chars = total.chars ∧
      together.words ≤ total.words ∧ total.words ≤ together.words + 1) ∧
    ∃ total : Counts,
      wc ["-cl", "a", "b"] meetingContext ⟨meetingFiles, none, #[]⟩ =
        .ok (.printed (Text.asLines
          (["0 3 a", "1 2 b"] ++ [Columns.row ⟨true, false, true⟩ total "total"])))
          ⟨meetingFiles, none, #[]⟩ ∧
      ∀ i, (Columns.shown ⟨true, false, true⟩ total).getD i 0 =
        [[0, 3].getD i 0, [1, 2].getD i 0].sum := by
  have hMemory : meetingContext.storage = some Storage.memory := rfl
  have hDown : ({ store := meetingFiles } : Machine FileTree).isStopped = false := rfl
  have hFirst : fileText meetingContext meetingFiles "a" = .ok "x y" := by decide +kernel
  have hSecond : fileText meetingContext meetingFiles "b" = .ok "z\n" := by decide +kernel
  obtain ⟨hNames, hArgs, -⟩ := wc_agrees_with_cat hMemory hDown
  constructor
  · refine hNames ["a", "b"] (by decide) ?_
    intro name hMem
    rcases List.mem_pair.mp hMem with rfl | rfl
    · exact ⟨by decide, "x y", hFirst⟩
    · exact ⟨by decide, "z\n", hSecond⟩
  · have hFiles : collected "wc" (fileCounts meetingContext meetingFiles) ["a", "b"] =
        ⟨[(⟨0, 2, 3⟩, "a"), (⟨1, 1, 2⟩, "b")], []⟩ := by
      have hFirst' : fileCounts meetingContext meetingFiles "a" = .ok (⟨0, 2, 3⟩, "a") := by
        rw [fileCounts, hFirst]
        decide
      have hSecond' : fileCounts meetingContext meetingFiles "b" = .ok (⟨1, 1, 2⟩, "b") := by
        rw [fileCounts, hSecond]
        decide
      rw [collected_cons_of_ok hFirst', collected_cons_of_ok hSecond']
      rfl
    have hWc := hArgs ["-cl", "a", "b"] ["a", "b"] ⟨true, false, true⟩ rfl (by decide)
    simp only [hFiles] at hWc
    exact hWc

end Builtin

end MemShell
