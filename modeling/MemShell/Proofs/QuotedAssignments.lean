import MemShell.Proofs.ExportedVariables
import MemShell.Proofs.RemovedAliases

/-!
# Assignments with quotes

A text can be put between quotes in two places of an assignment. Around the whole of it, the
quotes are those of a quoted token: they end where the token ends, and the escapes between them
are undone. Around the value alone, the same quotes are a span of a word. The scanner reads the
span to its end, so that no blank and no operator in it ends the word, but the word is its own
spelling (`isWord_quotedValue`): quotes, backslashes and escapes are part of it. `export` cuts its
argument at the first equals sign and takes the rest as it is. It does not look for quotes as
`alias` does, and the variable has them in its value.

## Main results

* `Token.unescape?_escape` — a text is read back from its escaped form.
* `isWord_quotedValue` — an assignment with quotes around its value is a word.
* `evaluate_export` — a line that exports one variable.
* `export_quoted` — what the two ways of quoting set.
-/

namespace MemShell

open Builtin Session
open Token (IsWord WordText tokenize unescape? unquote?)
open Token.Scan (Quote)

/-! ## Spellings of assignments -/

namespace Token

theorem unescape?_escapeChar (c : Char) : unescape? (Written.escapeChar c) = some [c] := by
  by_cases hEscaped : c = '\\' ∨ c = '"'
  · rw [Written.escapeChar, if_pos hEscaped]
    rcases hEscaped with rfl | rfl <;> rfl
  · rw [Written.escapeChar, if_neg hEscaped, unescape?, if_neg fun h => hEscaped h.symm]

/-- A text is read back from its escaped form. -/
theorem unescape?_escape (cs : List Char) : unescape? (Written.escape cs) = some cs := by
  induction cs with
  | nil => rfl
  | cons c cs ih => exact unescape?_append (unescape?_escapeChar c) ih

theorem length_le_length_escape (cs : List Char) : cs.length ≤ (Written.escape cs).length := by
  induction cs with
  | nil => exact Nat.zero_le _
  | cons c cs ih =>
      have hOne : 1 ≤ (Written.escapeChar c).length := by
        unfold Written.escapeChar
        split <;> simp
      have hSplit : Written.escape (c :: cs) = Written.escapeChar c ++ Written.escape cs := rfl
      rw [hSplit, List.length_append, List.length_cons]
      omega

theorem escape_of_plain {cs : List Char} (h : ∀ c ∈ cs, ¬ (c = '\\' ∨ c = '"')) :
    Written.escape cs = cs := by
  induction cs with
  | nil => rfl
  | cons c cs ih =>
      rw [List.forall_mem_cons] at h
      have hSplit : Written.escape (c :: cs) = Written.escapeChar c ++ Written.escape cs := rfl
      rw [hSplit, ih h.2, Written.escapeChar, if_neg h.1]
      rfl

/-- Escaping brings in no new characters but backslashes. -/
theorem not_mem_escape {c : Char} {cs : List Char} (h : c ∉ cs) (hBackslash : c ≠ '\\') :
    c ∉ Written.escape cs := by
  rw [Written.escape, List.mem_flatMap]
  rintro ⟨d, hd, hc⟩
  unfold Written.escapeChar at hc
  split at hc
  · rw [List.mem_pair] at hc
    exact hc.elim hBackslash fun hSame => h (hSame ▸ hd)
  · exact h (List.mem_singleton.mp hc ▸ hd)

end Token

section Words

variable {key value text : String} {q : Quote} {inner : List Char}

theorem not_mem_quoted {c : Char} (h : c ∉ text.toList) (hMark : c ≠ q.mark) :
    c ∉ (quoted q text).toList := by
  simp [toList_quoted, h, hMark]

/-- Quotes around a text make it longer. -/
theorem quoted_ne (h : value.length ≤ text.length) : quoted q text ≠ value := by
  rintro rfl
  simp only [← String.length_toList, toList_quoted, List.length_cons, List.length_append] at h
  omega

/-- A character of a name is none that ends a word or opens quotes. -/
theorem plain_of_isNameChar {c : Char} (h : Piece.isNameChar c = true) :
    Text.isBlank c = false ∧ Token.Scan.isOperatorChar c = false ∧ c ≠ '"' ∧ c ≠ '\'' := by
  have hRange : c = '_' ∨ ('a' ≤ c ∧ c ≤ 'z') ∨ ('A' ≤ c ∧ c ≤ 'Z') ∨ ('0' ≤ c ∧ c ≤ '9') := by
    simpa [Piece.isNameChar, or_assoc] using h
  have hBounds : 0x30 ≤ c.toNat ∧ c.toNat ≤ 0x7A ∧ c.toNat ≠ 0x3B ∧ c.toNat ≠ 0x3E := by
    rcases hRange with rfl | ⟨hLow, hHigh⟩ | ⟨hLow, hHigh⟩ | ⟨hLow, hHigh⟩
    · decide
    all_goals
      have hLow' := Char.le_def.mp hLow
      have hHigh' := Char.le_def.mp hHigh
      simp only [UInt32.le_iff_toNat_le, Char.reduceVal, UInt32.reduceToNat] at hLow' hHigh'
      have hNat : c.toNat = c.val.toNat := rfl
      omega
  have hOther : ∀ d : Char, d.toNat < 0x30 ∨ 0x7A < d.toNat ∨ d.toNat = 0x3B ∨ d.toNat = 0x3E →
      c ≠ d := by
    rintro d hd rfl
    omega
  refine ⟨?_, ?_, hOther _ (by decide), hOther _ (by decide)⟩
  · simp only [Text.isBlank, Bool.or_eq_false_iff, Bool.and_eq_false_iff, decide_eq_false_iff_not,
      beq_eq_false_iff_ne]
    omega
  · simp [Token.Scan.isOperatorChar, hOther '|' (by decide), hOther '&' (by decide),
      hOther '>' (by decide), hOther ';' (by decide)]

theorem wordText_of_isNameChar {cs : List Char} (h : ∀ c ∈ cs, Piece.isNameChar c = true) :
    WordText cs := by
  induction cs with
  | nil => exact .nil
  | cons c cs ih =>
      rw [List.forall_mem_cons] at h
      obtain ⟨hBlank, hOperator, hDouble, hSingle⟩ := plain_of_isNameChar h.1
      exact .ordinary hBlank hOperator hDouble hSingle (ih h.2)

/-- The name of a variable is a word. -/
theorem isWord_of_isVariable (h : IsVariable key) : IsWord key.toList := by
  have hChars := NameChars.isNameChar h
  refine ⟨?_, ?_, wordText_of_isNameChar hChars⟩
  · obtain ⟨first, rest, hKey, -⟩ := h
    simp [hKey]
  · intro c hc
    obtain ⟨-, hOperator, hDouble, hSingle⟩ :=
      plain_of_isNameChar (hChars c (List.mem_of_mem_head? hc))
    exact ⟨hDouble, hSingle, hOperator⟩

/-- The name of a variable needs no escapes, and the text behind it is escaped on its own. -/
theorem quote_assignment (hKey : IsVariable key) (hValue : '$' ∉ value.toList) :
    Written.quote (key ++ "=" ++ value) =
      quoted .double (key ++ "=" ++ String.ofList (Written.escape value.toList)) := by
  have hName : '$' ∉ key.toList := NameChars.not_mem hKey (by decide)
  have hChars : ∀ c ∈ (key ++ "=").toList, ¬ (c = '\\' ∨ c = '"') := by
    rw [String.toList_append]
    intro c hc
    rcases List.mem_append.mp hc with hc | hc
    · rintro (rfl | rfl)
      · exact NameChars.not_mem hKey (by decide) hc
      · exact NameChars.not_mem hKey (by decide) hc
    · rw [List.mem_singleton.mp hc]
      decide
  have hSplit : Written.escape (key ++ "=" ++ value).toList =
      (key ++ "=").toList ++ Written.escape value.toList := by
    rw [String.toList_append, Written.escape, List.flatMap_append]
    exact congrArg (· ++ Written.escape value.toList) (Token.escape_of_plain hChars)
  rw [Written.quote, if_neg (by simp [hName, hValue]), hSplit]
  apply String.toList_inj.mp
  rw [toList_quoted]
  simp [Quote.mark]

/-- **An assignment with quotes around its value is a word.** -/
theorem isWord_quotedValue (hKey : IsWord key.toList)
    (hSpan : unquote? q value.toList = some inner) :
    IsWord (key ++ "=" ++ quoted q value).toList := by
  have hEquals : WordText ['='] := .ordinary rfl rfl (by decide) (by decide) .nil
  have hValue : WordText (quoted q value).toList := by
    rw [toList_quoted]
    exact .quoted hSpan .nil
  rw [String.toList_append, String.toList_append]
  exact (hKey.append hEquals).append hValue

end Words

/-! ## The line of one assignment -/

section Lines

variable {σ : Type} {shell : Shell σ} {s : Session σ} {key text : String}

/-- The line sets a variable. Nothing is printed, and nothing else is changed but the status. -/
def Sets (shell : Shell σ) (s : Session σ) (line key text : String) : Prop :=
  ∃ t, evaluate shell line s = .ok ⟨"", "", 0⟩ t ∧
    t = { s with env := s.env.insert key text, lastStatus := 0, machine := t.machine } ∧
    t.machine.store = s.machine.store

/-- The commands of the shell have the one that exports variables. -/
def Exporting (shell : Shell σ) : Prop :=
  shell.registry.builtins.get? "export" = some (.pure fun call => exportVars call.args call.context)

/-- **A line that exports one variable**, from the token behind the name of the command. -/
theorem evaluate_export {rest : String} {t : Token} (hExport : Exporting shell)
    (hAlias : s.aliases.get? "export" = none) (hFree : s.IsFree) (hKey : IsVariable key)
    (hToken : tokenize rest = .ok [t]) (hText : t.kind.isText = true)
    (hValue : t.value = key ++ "=" ++ text) (hPlain : '$' ∉ text.toList) :
    Sets shell s ("export" ++ " " ++ rest) key text := by
  have hEquals : '=' ∉ key.toList := NameChars.not_mem hKey (by decide)
  have hFilled : t.expandVariables s.expansionEnv = .ok t := by
    have hName : '$' ∉ key.toList := NameChars.not_mem hKey (by decide)
    exact Written.expandVariables_of_inert (fun _ => by simp [hValue, hName, hPlain]) _
  have hOutcome : exportVars [t.value] (s.context shell) =
      .changing { exports := (∅ : Table String String).insert key text } := by
    rw [hValue, exportVars_assignment hEquals, if_pos (isName_iff.mpr (.inl hKey))]
  obtain ⟨u, hRun, hAfter⟩ := evaluate_argument (by decide) rfl hAlias (by decide) hToken hText
    hFilled hExport hFree hOutcome ⟨rfl, rfl, rfl⟩
  exact ⟨u, hRun, hAfter.eq_of_renewed, hAfter.store_eq_of_renewed⟩

end Lines

/-! ## The two ways of quoting -/

/--
**What the two ways of quoting set**, for a text without references. With double quotes around the
whole assignment, the variable is set to the text. With quotes around the value alone, the
variable is set to the value as it is spelled, the quotes and the escapes between them included,
which is never the text.
-/
theorem export_quoted {σ : Type} (shell : Shell σ) (s : Session σ) (key value : String)
    (hExport : Exporting shell) (hAlias : s.aliases.get? "export" = none) (hFree : s.IsFree)
    (hKey : IsVariable key) (hValue : '$' ∉ value.toList) :
    let escaped := String.ofList (Written.escape value.toList)
    Sets shell s ("export" ++ " " ++ quoted .double (key ++ "=" ++ escaped)) key value ∧
      Sets shell s ("export" ++ " " ++ (key ++ "=" ++ quoted .double escaped)) key
        (quoted .double escaped) ∧
      quoted .double escaped ≠ value ∧
      ('\'' ∉ value.toList →
        Sets shell s ("export" ++ " " ++ (key ++ "=" ++ quoted .single value)) key
          (quoted .single value) ∧
        quoted .single value ≠ value) := by
  intro escaped
  have hEscaped : escaped.toList = Written.escape value.toList := String.toList_ofList
  have hEscapes : '$' ∉ escaped.toList := hEscaped ▸ Token.not_mem_escape hValue (by decide)
  refine ⟨?_, ?_, quoted_ne ?_, fun hSingle => ⟨?_, quoted_ne (Nat.le_refl _)⟩⟩
  · have hName : '$' ∉ key.toList := NameChars.not_mem hKey (by decide)
    have hNone : '$' ∉ (key ++ "=" ++ value).toList := by simp [hName, hValue]
    have hToken : Written.textToken (key ++ "=" ++ value) =
        ⟨.doubleQuoted, key ++ "=" ++ value⟩ := if_neg hNone
    have hSpells := (Written.spells_quote (.inl hNone)).tokenize
    rw [quote_assignment hKey hValue, hToken] at hSpells
    exact evaluate_export hExport hAlias hFree hKey hSpells rfl rfl hValue
  · have hSpan : unquote? .double escaped.toList = some value.toList := by
      rw [hEscaped]
      exact Token.unescape?_escape _
    exact evaluate_export hExport hAlias hFree hKey
      (Token.tokenize_of_isWord (isWord_quotedValue (isWord_of_isVariable hKey) hSpan)) rfl rfl
      (not_mem_quoted hEscapes (by decide))
  · rw [← String.length_toList, ← String.length_toList, hEscaped]
    exact Token.length_le_length_escape _
  · have hSpan : unquote? .single value.toList = some value.toList := if_neg hSingle
    exact evaluate_export hExport hAlias hFree hKey
      (Token.tokenize_of_isWord (isWord_quotedValue (isWord_of_isVariable hKey) hSpan)) rfl rfl
      (not_mem_quoted hValue (by decide))

/-- Two words that need quotes in a line, and a text that needs escapes. -/
theorem export_quoted_startSession :
    Exporting Cli.shell ∧
      Sets Cli.shell (Session.start ∅ ∅ .empty) "export \"A=a \\\"b\\\"\"" "A" "a \"b\"" ∧
      Sets Cli.shell (Session.start ∅ ∅ .empty) "export A=\"a \\\"b\\\"\"" "A"
        "\"a \\\"b\\\"\"" ∧
      Sets Cli.shell (Session.start ∅ ∅ .empty) "export A='a \"b\"'" "A" "'a \"b\"'" := by
  have hKey : IsVariable "A" := ⟨'A', [], rfl, rfl, by simp⟩
  obtain ⟨hWhole, hDouble, -, hSingle⟩ := export_quoted Cli.shell (Session.start ∅ ∅ .empty) "A"
    "a \"b\"" rfl rfl (isFree_of_depth rfl) hKey (by decide)
  exact ⟨rfl, hWhole, hDouble, (hSingle (by decide)).1⟩

end MemShell
