import MemShell.Builtin.Environment
import MemShell.Cli
import MemShell.Proofs.SingleCommands
import MemShell.Proofs.TextPieces

/-!
# Exported variables

Two rules have to agree on the names of variables. `export` checks a name before it asks for the
variable, and the reader of references takes the characters of a name from a text. They agree on
the characters (`isNameChar_eq`), so a name that is a letter or an underscore and then letters,
digits and underscores is set and read back. They do not agree on the end: the check lets one
line feed pass at the end of a name, which is no character of a bare reference
(`isName_iff`). A variable with such a name is set under it, line feed included. In braces it can
be read, since braces enclose any text; a bare reference ends before the line feed and is one to
the variable without it.

What a text stands for depends on the variables it refers to and on no others
(`expandText_congr`). Setting a variable therefore shows in the texts that refer to it only.

## Main results

* `Builtin.isName_iff` — the names that pass the check.
* `expandText_congr` — only the variables that a text refers to matter.
* `expandText_braced`, `expandText_named` — a reference alone.
* `export_readBack` — what is read after a variable was exported.
-/

namespace MemShell

/-! ## Names that pass the check -/

namespace Builtin

/-- A letter or an underscore, and then letters, digits and underscores. -/
def NameChars (cs : List Char) : Prop :=
  ∃ first rest, cs = first :: rest ∧ isNameStart first = true ∧ ∀ c ∈ rest, isNameRest c = true

/-- The name of a variable, as references spell it. -/
def IsVariable (name : String) : Prop :=
  NameChars name.toList

/-- The characters of names are the characters of bare references. -/
theorem isNameChar_eq : Piece.isNameChar = isNameRest :=
  rfl

theorem NameChars.isNameChar {cs : List Char} (h : NameChars cs) :
    ∀ c ∈ cs, Piece.isNameChar c = true := by
  obtain ⟨first, rest, rfl, hFirst, hRest⟩ := h
  rw [isNameChar_eq, List.forall_mem_cons]
  exact ⟨by simp [isNameRest, hFirst], hRest⟩

theorem NameChars.not_mem {cs : List Char} (h : NameChars cs) {c : Char}
    (hOther : Piece.isNameChar c = false) : c ∉ cs := by
  intro hc
  rw [h.isNameChar c hc] at hOther
  cases hOther

theorem isName_iff_dropFinalNewline {name : String} :
    isName name = true ↔ NameChars (dropFinalNewline name.toList) := by
  unfold isName NameChars
  cases dropFinalNewline name.toList <;> simp

theorem dropFinalNewline_of_not_mem {cs : List Char} (h : '\n' ∉ cs) :
    dropFinalNewline cs = cs := by
  rw [dropFinalNewline, if_neg fun hLast => h (List.mem_of_getLast? hLast)]

theorem dropFinalNewline_concat (cs : List Char) : dropFinalNewline (cs ++ ['\n']) = cs := by
  simp [dropFinalNewline]

/-- **The names that pass the check**: those of variables, with or without one line feed at the
end. -/
theorem isName_iff {name : String} :
    isName name = true ↔
      IsVariable name ∨ ∃ variableName, IsVariable variableName ∧ name = variableName ++ "\n" := by
  rw [isName_iff_dropFinalNewline]
  constructor
  · intro h
    by_cases hLast : name.toList.getLast? = some '\n'
    · obtain ⟨front, hFront⟩ := List.getLast?_eq_some_iff.mp hLast
      rw [hFront, dropFinalNewline_concat] at h
      refine .inr ⟨String.ofList front, by rwa [IsVariable, String.toList_ofList], ?_⟩
      apply String.toList_inj.mp
      simp [hFront]
    · rw [dropFinalNewline, if_neg hLast] at h
      exact .inl h
  · rintro (h | ⟨variableName, h, rfl⟩)
    · have hNone : '\n' ∉ name.toList := NameChars.not_mem h (by decide)
      rwa [dropFinalNewline_of_not_mem hNone]
    · have hText : (variableName ++ "\n").toList = variableName.toList ++ ['\n'] := by simp
      rwa [hText, dropFinalNewline_concat]

theorem IsVariable.ne_empty {name : String} (h : IsVariable name) : name ≠ "" := by
  rintro rfl
  obtain ⟨first, rest, hChars, -⟩ := h
  cases hChars

/-- A name that passes the check has no character that is neither one of a name nor a line
feed. -/
theorem not_mem_of_isName {name : String} (h : isName name = true) {c : Char}
    (hOther : Piece.isNameChar c = false) (hNewline : c ≠ '\n') : c ∉ name.toList := by
  rcases isName_iff.mp h with hVariable | ⟨variableName, hVariable, rfl⟩
  · exact NameChars.not_mem hVariable hOther
  · have hFront : c ∉ variableName.toList := NameChars.not_mem hVariable hOther
    simp [hFront, hNewline]

end Builtin

/-! ## Texts and the variables they refer to -/

/-- The text has a reference to a variable of this name. -/
def Refers (text name : String) : Prop :=
  ∃ pieces, Piece.Reads text.toList pieces ∧ ∃ p ∈ pieces, p.reference? = some name

open Piece

variable {env env' : Table String String} {text name : String}

theorem value_congr {p : Piece}
    (h : ∀ name ∈ p.reference?, env'.get? name = env.get? name) : p.value env' = p.value env := by
  unfold Piece.value
  cases hName : p.reference? with
  | none => rfl
  | some name =>
      show (env'.get? name).getD "" = (env.get? name).getD ""
      rw [h name hName]

/-- **Only the variables that a text refers to matter** for what it stands for. -/
theorem expandText_congr (h : ∀ name, Refers text name → env'.get? name = env.get? name) :
    expandText env' text = expandText env text := by
  rcases reads_or_open text.toList with ⟨ps, hReads⟩ | ⟨-, hRun⟩
  · have hValues : ps.map (Piece.value env') = ps.map (Piece.value env) := by
      refine List.map_congr_left fun p hp => value_congr fun name hName => ?_
      exact h name ⟨ps, hReads, p, hp, hName⟩
    rw [expandText_of_reads hReads, expandText_of_reads hReads, hValues]
  · rw [expandText_of_run hRun, expandText_of_run hRun]

/-! ## A reference alone -/

theorem reads_braced (h : '\x7d' ∉ name.toList) :
    Reads ("$\x7b" ++ name ++ "\x7d").toList [.braced name.toList] := by
  have hText : ("$\x7b" ++ name ++ "\x7d").toList = (Piece.braced name.toList).spelling ++ [] := by
    simp [spelling]
  rw [hText]
  exact .cons h .nil

theorem reads_named (hSome : name ≠ "") (h : ∀ c ∈ name.toList, isNameChar c = true) :
    Reads ("$" ++ name).toList [.named name.toList] := by
  have hText : ("$" ++ name).toList = (Piece.named name.toList).spelling ++ [] := by
    simp [spelling]
  rw [hText]
  refine .cons ⟨by simpa using hSome, h, ?_⟩ .nil
  intro c hc
  cases hc

theorem expandText_braced (h : '\x7d' ∉ name.toList) (env : Table String String) :
    expandText env ("$\x7b" ++ name ++ "\x7d") = .ok ((env.get? name).getD "") := by
  rw [expandText_of_reads (reads_braced h)]
  simp [Piece.value, reference?]

theorem expandText_named (hSome : name ≠ "") (h : ∀ c ∈ name.toList, isNameChar c = true)
    (env : Table String String) :
    expandText env ("$" ++ name) = .ok ((env.get? name).getD "") := by
  rw [expandText_of_reads (reads_named hSome h)]
  simp [Piece.value, reference?]

/-- A bare reference ends where the characters of a name do. -/
theorem expandText_named_newline (hSome : name ≠ "")
    (h : ∀ c ∈ name.toList, isNameChar c = true) (env : Table String String) :
    expandText env ("$" ++ (name ++ "\n")) = .ok ((env.get? name).getD "" ++ "\n") := by
  have hText : ("$" ++ (name ++ "\n")).toList =
      (Piece.named name.toList).spelling ++ ((Piece.literal '\n').spelling ++ []) := by
    simp [spelling]
  have hReads : Reads ("$" ++ (name ++ "\n")).toList [.named name.toList, .literal '\n'] := by
    rw [hText]
    refine .cons ⟨by simpa using hSome, h, ?_⟩ (.cons (by simp [Fits]) .nil)
    intro c hc
    obtain rfl : '\n' = c := by simpa [spelling] using hc
    decide
  rw [expandText_of_reads hReads]
  simp [Piece.value, reference?, spelling, String.join]

/-! ## Setting a variable -/

variable {σ : Type} {shell : Shell σ} {s t : Session σ} {key value : String}

namespace Builtin

/-- An assignment is refused, or it is the one change that is asked for. -/
theorem exportVars_assignment (hKey : '=' ∉ key.toList) (value : String) (ctx : Context σ) :
    exportVars [key ++ "=" ++ value] ctx =
      if isName key then .changing { exports := (∅ : Table String String).insert key value }
      else
        { stderr := "export: '" ++ key ++ "': not a valid identifier\n"
          status := 1 } := by
  have hCut : Text.cut '=' (key ++ "=" ++ value) = some (key, value) := Text.cut_append hKey value
  simp only [exportVars, List.isEmpty_cons, Bool.false_eq_true, if_false, readExports, hCut]

theorem isName_of_exportVars (hKey : '=' ∉ key.toList) {ctx : Context σ}
    (h : (exportVars [key ++ "=" ++ value] ctx).status = 0) : isName key = true := by
  cases hName : isName key with
  | true => rfl
  | false =>
      rw [exportVars_assignment hKey, hName] at h
      cases h

end Builtin

open Builtin

/-- A variable is set, and nothing else is changed. -/
theorem apply_export (key value : String) (s : Session σ) :
    let c : Changes := { exports := (∅ : Table String String).insert key value }
    Session.apply shell c s =
      .ok none { s with env := s.env.insert key value, machine := s.machine.log (.applied c) } :=
  Session.apply_onNames ⟨rfl, rfl, rfl⟩

/-- The status of the last command is read under a name that no variable has. -/
theorem get?_expansionEnv_of_insert (hEnv : t.env = s.env.insert key value)
    (hStatus : t.lastStatus = s.lastStatus) (hName : isName key = true) (name : String) :
    t.expansionEnv.get? name = if key = name then some value else s.expansionEnv.get? name := by
  have hKey : key ≠ "?" := by
    rintro rfl
    exact absurd (by decide : '?' ∈ "?".toList) (not_mem_of_isName hName (by decide) (by decide))
  unfold Session.expansionEnv
  rw [hEnv, hStatus, Table.get?_insert, Table.get?_insert, Table.get?_insert]
  by_cases hMark : "?" = name
  · rw [if_pos hMark, if_pos hMark, if_neg fun hSame => hKey (hSame.trans hMark.symm)]
  · rw [if_neg hMark, if_neg hMark]

/--
**What is read after a variable was exported.** If `export` takes an assignment, its changes can
be made, and then the variable is read in braces as it was set. A bare reference reads it too if
its name is the name of a variable. The one other name that is taken has a line feed behind the
name of a variable; then a bare reference is one to that other variable, with a line feed
behind it. Every text without a reference to the variable that was set stands for what it did,
and so every other name is read as before, in braces and bare.
-/
theorem export_readBack (shell : Shell σ) (s : Session σ) (key value : String)
    (hKey : '=' ∉ key.toList)
    (hOk : (exportVars [key ++ "=" ++ value] (s.context shell)).status = 0) :
    ∃ t, Session.apply shell (exportVars [key ++ "=" ++ value] (s.context shell)).changes s =
        .ok none t ∧
      expandText t.expansionEnv ("$\x7b" ++ key ++ "\x7d") = .ok value ∧
      (IsVariable key ∧ expandText t.expansionEnv ("$" ++ key) = .ok value ∨
        ∃ name, IsVariable name ∧ key = name ++ "\n" ∧
          expandText t.expansionEnv ("$" ++ key) =
            .ok ((s.expansionEnv.get? name).getD "" ++ "\n")) ∧
      (∀ text, ¬ Refers text key →
        expandText t.expansionEnv text = expandText s.expansionEnv text) ∧
      ∀ other, other ≠ key →
        ('\x7d' ∉ other.toList → expandText t.expansionEnv ("$\x7b" ++ other ++ "\x7d") =
          expandText s.expansionEnv ("$\x7b" ++ other ++ "\x7d")) ∧
        (other ≠ "" → (∀ c ∈ other.toList, isNameChar c = true) →
          expandText t.expansionEnv ("$" ++ other) = expandText s.expansionEnv ("$" ++ other)) := by
  have hName : isName key = true := isName_of_exportVars hKey hOk
  obtain ⟨t, hApply, hEnv, hStatus⟩ : ∃ t, Session.apply shell
      { exports := (∅ : Table String String).insert key value } s = .ok none t ∧
      t.env = s.env.insert key value ∧ t.lastStatus = s.lastStatus :=
    ⟨_, apply_export key value s, rfl, rfl⟩
  have hGet := get?_expansionEnv_of_insert hEnv hStatus hName
  rw [exportVars_assignment hKey, if_pos hName]
  refine ⟨t, hApply, ?_, ?_, fun text hNot => ?_, fun other hOther =>
    ⟨fun hClosed => ?_, fun hSome hChars => ?_⟩⟩
  · have hBrace : '\x7d' ∉ key.toList := not_mem_of_isName hName (by decide) (by decide)
    rw [expandText_braced hBrace, hGet, if_pos rfl]
    rfl
  · rcases isName_iff.mp hName with hVariable | ⟨name, hVariable, rfl⟩
    · refine .inl ⟨hVariable, ?_⟩
      rw [expandText_named hVariable.ne_empty (NameChars.isNameChar hVariable), hGet, if_pos rfl]
      rfl
    · refine .inr ⟨name, hVariable, rfl, ?_⟩
      have hLonger : name ++ "\n" ≠ name := by
        intro hSame
        have hLength := congrArg String.length hSame
        simp at hLength
      rw [expandText_named_newline hVariable.ne_empty (NameChars.isNameChar hVariable), hGet,
        if_neg hLonger]
  · refine expandText_congr fun name hRefers => ?_
    rw [hGet, if_neg fun hSame : key = name => hNot (hSame ▸ hRefers)]
  · rw [expandText_braced hClosed, expandText_braced hClosed, hGet, if_neg (Ne.symm hOther)]
  · rw [expandText_named hSome hChars, expandText_named hSome hChars, hGet, if_neg (Ne.symm hOther)]

/-- A session with a variable, which is set once more and then under a longer name. -/
def settingSession : Session FileTree :=
  Session.start (.ofList [("A", "old")]) ∅ .empty

theorem export_readBack_settingSession :
    ((exportVars ["A=new"] (settingSession.context Cli.shell)).status = 0 ∧
      ∃ t, Session.apply Cli.shell (exportVars ["A=new"] (settingSession.context Cli.shell)).changes
          settingSession = .ok none t ∧
        expandText t.expansionEnv "$\x7bA\x7d" = .ok "new" ∧
        expandText t.expansionEnv "$A" = .ok "new" ∧
        expandText t.expansionEnv "$USER" = expandText settingSession.expansionEnv "$USER") ∧
    (exportVars ["A\n=new"] (settingSession.context Cli.shell)).status = 0 ∧
      ∃ t, Session.apply Cli.shell
          (exportVars ["A\n=new"] (settingSession.context Cli.shell)).changes
          settingSession = .ok none t ∧
        expandText t.expansionEnv "$\x7bA\n\x7d" = .ok "new" ∧
        expandText t.expansionEnv "$A\n" = .ok "old\n" := by
  have hPlain : (exportVars ["A=new"] (settingSession.context Cli.shell)).status = 0 := by
    decide +kernel
  have hLonger : (exportVars ["A\n=new"] (settingSession.context Cli.shell)).status = 0 := by
    decide +kernel
  have hNewline : '\n' ∉ "A".toList := by decide
  refine ⟨⟨hPlain, ?_⟩, hLonger, ?_⟩
  · obtain ⟨t, hApply, hBraced, hBare, -, hOthers⟩ :=
      export_readBack Cli.shell settingSession "A" "new" (by decide) hPlain
    have hChars : ∀ c ∈ "USER".toList, isNameChar c = true :=
      List.all_eq_true.mp (by decide : "USER".toList.all isNameChar = true)
    refine ⟨t, hApply, hBraced, ?_, (hOthers "USER" (by decide)).2 (by decide) hChars⟩
    rcases hBare with ⟨-, hBare⟩ | ⟨name, -, hSame, -⟩
    · exact hBare
    · exact absurd (by rw [hSame]; simp) hNewline
  · obtain ⟨t, hApply, hBraced, hBare, -, -⟩ :=
      export_readBack Cli.shell settingSession "A\n" "new" (by decide) hLonger
    refine ⟨t, hApply, hBraced, ?_⟩
    rcases hBare with ⟨hVariable, -⟩ | ⟨name, -, hSame, hBare⟩
    · exact absurd (by decide : '\n' ∈ "A\n".toList) (NameChars.not_mem hVariable (by decide))
    · have hName : name = "A" := by
        have hChars := congrArg String.toList hSame
        rw [String.toList_append] at hChars
        exact String.toList_inj.mp (List.append_cancel_right hChars).symm
      subst hName
      exact hBare

end MemShell
