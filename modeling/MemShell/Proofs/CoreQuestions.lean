import Mathlib.Data.List.TakeWhile
import MemShell.Proofs.Registrations
import MemShell.Proofs.WrittenFiles

/-!
# What the core commands ask

A command is free to do anything to the host, but the core commands, apart from the one that
waits, only ask the store: they leave the host as they found it, their answer depends on
nothing of it but the store, and what they let out can be told beforehand (`OnlyAsks`).
With the store kept in memory every question has an answer, and where the answer is a
fault, the commands meet it themselves and end with an outcome.

There is one exception. `history` makes sure that its argument is made of digits before it
reads it as a number, and takes that for enough. It is not: a digit that is no decimal
digit, such as a superscript, has no value in a numeral, and a numeral may be too long to
be converted (`readInt_of_digits`). In both cases the refusal is let out.

## Main results

* `readInt_of_digits` — which texts of digits are numerals.
* `onlyAsks_core` — the core commands, as questions.
* `core_answers` — which calls of core commands end with an outcome.
-/

namespace MemShell

/-! ## Questions -/

section Questions

variable {ε ε' σ α β : Type}

/-- Gives an answer, or lets it out if it is none. -/
def reply (answer : Except ε α) : HostM ε σ α := fun h =>
  match answer with
  | .ok a => .ok a h
  | .error e => .error e h

/-- The action asks the store and does nothing else, and lets only such things out. -/
def OnlyAsks (Out : ε → Prop) (action : HostM ε σ α) : Prop :=
  ∃ answer : σ → Except ε α, (∀ h, action h = reply (answer h.store) h) ∧
    ∀ t e, answer t = .error e → Out e

/-- Nothing is let out. -/
def Never : ε → Prop :=
  fun _ => False

namespace OnlyAsks

variable {Out Out' : ε → Prop} {action : HostM ε σ α}

theorem mono (h : OnlyAsks Out action) (hMore : ∀ e, Out e → Out' e) : OnlyAsks Out' action := by
  obtain ⟨answer, hRun, hOut⟩ := h
  exact ⟨answer, hRun, fun t e hAnswer => hMore e (hOut t e hAnswer)⟩

theorem of_never (h : OnlyAsks Never action) : OnlyAsks Out action :=
  h.mono fun _ hNever => hNever.elim

theorem pure (a : α) : OnlyAsks Out (Pure.pure a : HostM ε σ α) :=
  ⟨fun _ => .ok a, fun _ => rfl, fun _ _ hAnswer => by cases hAnswer⟩

theorem throw {e : ε} (hOut : Out e) : OnlyAsks Out (MonadExcept.throw e : HostM ε σ α) :=
  ⟨fun _ => .error e, fun _ => rfl, fun _ _ hAnswer => Except.error.inj hAnswer ▸ hOut⟩

theorem bind {next : α → HostM ε σ β} (h : OnlyAsks Out action)
    (hNext : ∀ a, OnlyAsks Out (next a)) : OnlyAsks Out (action >>= next) := by
  obtain ⟨first, hFirst, hFirstOut⟩ := h
  choose rest hRest hRestOut using hNext
  refine ⟨fun t => (first t).bind fun a => rest a t, fun host => ?_, fun t e hAnswer => ?_⟩
  · have hRun := hFirst host
    cases hCase : first host.store with
    | ok a =>
        rw [hCase] at hRun
        exact (bind_of_ok hRun).trans (by simpa [hCase, Except.bind] using hRest a host)
    | error e =>
        rw [hCase] at hRun
        exact (bind_of_error hRun).trans (by simp [hCase, Except.bind, reply])
  · cases hCase : first t with
    | ok a => exact hRestOut a t e (by simpa [hCase, Except.bind] using hAnswer)
    | error e' =>
        obtain rfl : e' = e := by simpa [hCase, Except.bind] using hAnswer
        exact hFirstOut t _ hCase

/-- A fault that is met is an answer. -/
theorem attempt {Out' : ε' → Prop} (h : OnlyAsks Out action) :
    OnlyAsks Out' (MemShell.attempt action : HostM ε' σ _) := by
  obtain ⟨answer, hRun, -⟩ := h
  refine ⟨fun t => .ok (answer t), fun host => ?_, fun _ _ hAnswer => by cases hAnswer⟩
  unfold MemShell.attempt
  rw [hRun]
  cases hCase : answer host.store <;> simp [hCase, reply]

theorem raising {action : HostM Fault σ α} {Out : Fault → Prop} (h : OnlyAsks Out action) :
    OnlyAsks (fun r => ∃ f, r = .fault f ∧ Out f) (MemShell.raising action) := by
  obtain ⟨answer, hRun, hOut⟩ := h
  refine ⟨fun t => (answer t).mapError .fault, fun host => ?_, fun t r hAnswer => ?_⟩
  · unfold MemShell.raising
    rw [hRun]
    cases hCase : answer host.store <;> simp [hCase, reply, Except.mapError]
  · cases hCase : answer t with
    | ok a => simp [hCase, Except.mapError] at hAnswer
    | error f =>
        obtain rfl : Raised.fault f = r := by simpa [hCase, Except.mapError] using hAnswer
        exact ⟨f, rfl, hOut t f hCase⟩

/-- A question to the store that is kept in memory. -/
theorem ask {Out : Fault → Prop} (question : FileTree → Except Fault α)
    (hOut : ∀ t f, question t = .error f → Out f) : OnlyAsks Out (Storage.ask question) := by
  refine ⟨question, fun host => ?_, hOut⟩
  unfold Storage.ask reply
  cases question host.store <;> rfl

end OnlyAsks

end Questions

/-! ## Numerals made of digits -/

namespace Numeral

open Text

/-- The ranges of the characters that may stand around a numeral, both ends included. -/
def paddingRanges : List (Nat × Nat) :=
  [(0x09, 0x0D), (0x20, 0x20), (0x85, 0x85), (0xA0, 0xA0), (0x1680, 0x1680), (0x2000, 0x200A),
   (0x2028, 0x2029), (0x202F, 0x202F), (0x205F, 0x205F), (0x3000, 0x3000)]

theorem exists_range_of_isPadding {c : Char} (h : isPadding c = true) :
    ∃ range ∈ paddingRanges, range.1 ≤ c.toNat ∧ c.toNat ≤ range.2 := by
  simp only [isPadding, isBlank, Bool.and_eq_true, Bool.or_eq_true, Bool.not_eq_true',
    Bool.and_eq_false_iff, decide_eq_true_eq, decide_eq_false_iff_not, beq_iff_eq] at h
  simp only [paddingRanges, List.mem_cons, List.not_mem_nil, or_false, or_and_right, exists_or,
    exists_eq_left]
  omega

/-- The ranges of padding and of digits lie apart. -/
theorem paddingRanges_apart : ∀ range ∈ paddingRanges,
    (∀ start ∈ decimalZeros, start + 10 ≤ range.1 ∨ range.2 < start) ∧
      ∀ other ∈ otherDigits, other.2 < range.1 ∨ range.2 < other.1 := by
  decide

theorem not_isPadding_of_isDigit {c : Char} (h : isDigit c = true) : isPadding c = false := by
  cases hPadding : isPadding c with
  | false => rfl
  | true =>
      obtain ⟨range, hRange, hLo, hHi⟩ := exists_range_of_isPadding hPadding
      obtain ⟨hDecimal, hOther⟩ := paddingRanges_apart range hRange
      rw [isDigit, Bool.or_eq_true] at h
      rcases h with hSome | hAny
      · rw [decimalValue?, Option.isSome_map, List.find?_isSome] at hSome
        obtain ⟨start, hStart, hIn⟩ := hSome
        have := hDecimal start hStart
        simp only [Bool.and_eq_true, decide_eq_true_eq] at hIn
        omega
      · obtain ⟨other, hMem, hIn⟩ := List.any_eq_true.mp hAny
        have := hOther other hMem
        simp only [Bool.and_eq_true, decide_eq_true_eq] at hIn
        omega

/-- A text that starts with a digit has no sign. -/
theorem takeSign_of_isDigit {c : Char} (h : isDigit c = true) (cs : List Char) :
    takeSign (c :: cs) = (false, c :: cs) := by
  have hMinus : c ≠ '-' := by
    rintro rfl
    exact absurd h (by decide)
  have hPlus : c ≠ '+' := by
    rintro rfl
    exact absurd h (by decide)
  simp [takeSign, hMinus, hPlus]

theorem isRunChar_of_isDigit {c : Char} (h : isDigit c = true) :
    isRunChar c = (decimalValue? c).isSome := by
  have hUnderscore : c ≠ '_' := by
    rintro rfl
    exact absurd h (by decide)
  simp [isRunChar, hUnderscore]

theorem joinsDigits_of_forall_ne {cs : List Char} (h : '_' ∉ cs) (hCs : cs ≠ []) (b : Bool) :
    joinsDigits b cs = true := by
  induction cs generalizing b with
  | nil => exact absurd rfl hCs
  | cons c cs ih =>
      rw [List.mem_cons, not_or] at h
      rw [joinsDigits, if_neg (Ne.symm h.1)]
      cases cs with
      | nil => rfl
      | cons d ds => exact ih h.2 (by simp) true

/-- A run of decimal digits has a value for each of them. -/
theorem digitsOfRun?_of_decimal {run : List Char} (h : ∀ c ∈ run, (decimalValue? c).isSome = true)
    (hRun : run ≠ []) :
    ∃ ds : List Nat, digitsOfRun? run = some ds ∧ ds.length = run.length := by
  refine ⟨run.filterMap decimalValue?, ?_, List.filterMap_length_eq_length.mpr h⟩
  rw [digitsOfRun?, if_pos (joinsDigits_of_forall_ne (fun hMem => ?_) hRun false)]
  exact absurd (h '_' hMem) (by decide)

/-- Digits are read without padding or sign before them. -/
theorem readInt_eq_of_digits {text : String} (hEmpty : text.toList ≠ [])
    (hDigits : ∀ c ∈ text.toList, isDigit c = true) :
    readInt text =
      match digitsOfRun? (text.toList.takeWhile isRunChar) with
      | none => .error (.malformed text)
      | some digits =>
          if maxDigits < digits.length then .error (.tooLong digits.length)
          else if (text.toList.dropWhile isRunChar).all isPadding then .ok (readDigits digits)
          else .error (.malformed text) := by
  cases hText : text.toList with
  | nil => exact absurd hText hEmpty
  | cons c cs =>
      have hDigit : isDigit c = true := hDigits c (by simp [hText])
      have hPadding : (c :: cs).dropWhile isPadding = c :: cs :=
        List.dropWhile_cons_of_neg (by simp [not_isPadding_of_isDigit hDigit])
      rw [readInt, hText, hPadding, takeSign_of_isDigit hDigit]
      rfl

/-- **A text of digits is a numeral** exactly if all of them are decimal digits and there are
not too many. -/
theorem readInt_of_digits {text : String} (hEmpty : text.toList ≠ [])
    (hDigits : ∀ c ∈ text.toList, isDigit c = true) :
    (∃ n, readInt text = .ok n) ↔
      (∀ c ∈ text.toList, (decimalValue? c).isSome = true) ∧ text.toList.length ≤ maxDigits := by
  rw [readInt_eq_of_digits hEmpty hDigits]
  have hRun : ∀ c ∈ text.toList, isRunChar c = (decimalValue? c).isSome := fun c hMem =>
    isRunChar_of_isDigit (hDigits c hMem)
  by_cases hAll : ∀ c ∈ text.toList, (decimalValue? c).isSome = true
  · have hAllRun : ∀ c ∈ text.toList, isRunChar c = true := fun c hMem =>
      (hRun c hMem).trans (hAll c hMem)
    obtain ⟨digits, hRead, hLength⟩ := digitsOfRun?_of_decimal hAll hEmpty
    rw [List.takeWhile_eq_self_iff.mpr hAllRun, List.dropWhile_eq_nil_iff.mpr hAllRun, hRead]
    by_cases hLong : maxDigits < digits.length
    · simp [hLong, ← hLength]
    · simpa [hLong, ← hLength, Nat.le_of_not_lt hLong] using hAll
  · -- the digit that is not decimal ends the run, and no padding follows
    have hRest : (text.toList.dropWhile isRunChar).all isPadding = false := by
      cases hDrop : text.toList.dropWhile isRunChar with
      | nil =>
          exact absurd (fun c hMem => (hRun c hMem).symm.trans
            (List.dropWhile_eq_nil_iff.mp hDrop c hMem)) hAll
      | cons d ds =>
          have hMem : d ∈ text.toList :=
            (List.dropWhile_suffix isRunChar).mem (hDrop ▸ List.mem_cons_self)
          simp [not_isPadding_of_isDigit (hDigits d hMem)]
    simp only [hRest, hAll, false_and, iff_false, not_exists]
    intro n
    split
    · simp
    · split <;> simp

end Numeral

/-! ## The commands -/

namespace Builtin

variable {ctx : Context FileTree}

theorem onlyAsks_readFile (hMemory : ctx.InMemory) (name : String) :
    OnlyAsks (fun _ => True) (ctx.readFile name) := by
  unfold Context.readFile
  cases hStorage : ctx.storage with
  | none => exact .throw trivial
  | some storage =>
      obtain rfl := hMemory storage hStorage
      exact .ask (·.read _) fun _ _ _ => trivial

theorem onlyAsks_readFiles {α : Type} {Out : Fault → Prop} (command : String)
    {read : String → HostM Fault FileTree α} (hRead : ∀ name, OnlyAsks (fun _ => True) (read name))
    (names : List String) : OnlyAsks Out (readFiles command read names) := by
  induction names with
  | nil => exact .pure _
  | cons name names ih =>
      unfold readFiles
      refine .bind (.attempt (hRead name)) fun first => .bind ih fun rest => ?_
      cases first with
      | ok item => exact .pure _
      | error fault => exact .pure _

theorem onlyAsks_cat (args : List String) (hMemory : ctx.InMemory) :
    OnlyAsks Never (cat args ctx) := by
  unfold cat
  split
  · exact .pure _
  · refine .bind (onlyAsks_readFiles _ (fun name => ?_) args)
      fun files => .pure _
    split
    · exact .pure _
    · exact onlyAsks_readFile hMemory name

theorem onlyAsks_wc (args : List String) (hMemory : ctx.InMemory) :
    OnlyAsks Never (wc args ctx) := by
  unfold wc
  split
  · exact .pure _
  · split
    · exact .pure _
    · refine .bind (onlyAsks_readFiles _ (fun name => ?_) _)
        fun files => .pure _
      exact .bind (onlyAsks_readFile hMemory name) fun text => .pure _

theorem onlyAsks_source (args : List String) (hMemory : ctx.InMemory) :
    OnlyAsks Never (source args ctx) := by
  unfold source
  split
  · exact .pure _
  · refine .bind (.attempt (onlyAsks_readFile hMemory _)) fun content => ?_
    split
    · exact .pure _
    · exact .pure _

/-- The store kept in memory can always tell what is there. -/
theorem onlyAsks_cd (args : List String) (hMemory : ctx.InMemory) :
    OnlyAsks Never (cd args ctx) := by
  unfold cd
  split
  · exact .pure _
  · cases hStorage : ctx.storage with
    | none => exact .pure _
    | some storage =>
        obtain rfl := hMemory storage hStorage
        refine .bind (.ask (fun t => .ok (t.contains _)) fun _ _ hNone => ?_)
          fun found => ?_
        · cases hNone
        split
        · exact .pure _
        · refine .bind (.ask (fun t => .ok (t.isDir _)) fun _ _ hNone => ?_)
            fun ok => ?_
          · cases hNone
          split
          · exact .pure _
          · exact .pure _

/-- The argument passes for a number of entries and is no numeral: one of its digits is not
decimal, or there are too many of them. -/
def Uncountable (arg : String) : Prop :=
  isDigits arg = true ∧
    ((∃ c ∈ arg.toList, Text.decimalValue? c = none) ∨ Numeral.maxDigits < arg.toList.length)

theorem exists_readInt_iff {arg : String} (h : isDigits arg = true) :
    (∃ n, Numeral.readInt arg = .ok n) ↔ ¬ Uncountable arg := by
  have hParts : arg.toList ≠ [] ∧ ∀ c ∈ arg.toList, Text.isDigit c = true := by
    simpa [isDigits] using h
  rw [Numeral.readInt_of_digits hParts.1 hParts.2]
  simp [Uncountable, h, Option.isSome_iff_ne_none]

/-- What `history` lets out. -/
def HistoryRefuses (args : List String) (r : Raised) : Prop :=
  ∃ arg ∈ args.head?, Uncountable arg ∧
    ∃ e : Numeral.IntegerError, Numeral.readInt arg = .error e ∧ r = .fault (.value e.message)

theorem onlyAsks_history (args : List String) (ctx : Context FileTree) :
    OnlyAsks (fun f => HistoryRefuses args (.fault f)) (history args ctx) := by
  unfold history
  cases args with
  | nil => exact .pure _
  | cons arg args =>
      show OnlyAsks _ (if _ then _ else _)
      split
      · exact .pure _
      · rename_i hDigits
        have hDigits : isDigits arg = true := by simpa using hDigits
        cases hRead : Numeral.readInt arg with
        | error e =>
            have hNone : ¬ ∃ n, Numeral.readInt arg = .ok n := by simp [hRead]
            rw [exists_readInt_iff hDigits, not_not] at hNone
            exact .throw ⟨arg, rfl, hNone, e, hRead, rfl⟩
        | ok count => exact .pure _

end Builtin

/-- With its store in memory, the command asks a question, gives the answer as its outcome, and
lets only such things out. -/
def Command.OnlyAsks (Out : List String → Raised → Prop) (command : Command FileTree) : Prop :=
  ∀ call, call.context.InMemory →
    ∃ question : HostM Raised FileTree Outcome,
      MemShell.OnlyAsks (Out call.args) question ∧ command call = some <$> question

namespace Builtin

theorem onlyAsks_pure {Out : List String → Raised → Prop} (f : Call FileTree → Outcome) :
    Command.OnlyAsks Out (.pure f) :=
  fun call _ => ⟨Pure.pure (f call), .pure _, rfl⟩

theorem onlyAsks_ofHost {Out : List String → Raised → Prop}
    {f : Call FileTree → HostM Fault FileTree Outcome}
    (h : ∀ call, call.context.InMemory → OnlyAsks (fun e => Out call.args (.fault e)) (f call)) :
    Command.OnlyAsks Out (.ofHost f) := fun call hMemory =>
  ⟨raising (f call), (h call hMemory).raising.mono fun _ ⟨_, hRaised, hOut⟩ => hRaised ▸ hOut, rfl⟩

/-- **Every core command but the one that waits** asks a question, and lets something out only
if it is `history` and its argument is no numeral. -/
theorem onlyAsks_core :
    ∀ entry ∈ (core : List (List String × Command FileTree)), ∀ name ∈ entry.1, name ≠ "sleep" →
      entry.2.OnlyAsks fun args r => name = "history" ∧ HistoryRefuses args r := by
  simp only [core, List.forall_mem_cons, List.not_mem_nil, false_imp_iff, implies_true, and_true]
  exact ⟨fun _ => onlyAsks_pure _,
    fun _ => onlyAsks_ofHost fun call hMemory => (onlyAsks_cat call.args hMemory).of_never,
    fun _ => onlyAsks_ofHost fun call hMemory => (onlyAsks_wc call.args hMemory).of_never,
    fun _ => onlyAsks_pure _, fun _ => onlyAsks_pure _,
    fun hSleep => absurd rfl hSleep,
    fun _ => onlyAsks_pure _,
    fun _ => onlyAsks_ofHost fun call hMemory => (onlyAsks_cd call.args hMemory).of_never,
    fun _ => onlyAsks_pure _, fun _ => onlyAsks_pure _, fun _ => onlyAsks_pure _,
    fun _ => onlyAsks_pure _, fun _ => onlyAsks_pure _,
    fun _ => onlyAsks_ofHost fun call _ => (onlyAsks_history call.args call.context).mono
      fun _ hOut => ⟨trivial, hOut⟩,
    ⟨fun _ => onlyAsks_ofHost fun call hMemory => (onlyAsks_source call.args hMemory).of_never,
      fun _ => onlyAsks_ofHost fun call hMemory => (onlyAsks_source call.args hMemory).of_never⟩,
    ⟨fun _ => onlyAsks_pure _, fun _ => onlyAsks_pure _⟩, fun _ => onlyAsks_pure _⟩

theorem onlyAsks_of_get? {name : String} {command : Command FileTree}
    (hCore : registry.builtins.get? name = some command) (hName : name ≠ "sleep") :
    command.OnlyAsks fun args r => name = "history" ∧ HistoryRefuses args r := by
  obtain ⟨entry, hMem, hNames, rfl⟩ := Registry.exists_mem_of_get? core rfl hCore
  exact onlyAsks_core entry hMem name hNames hName

theorem get?_history : registry.builtins.get? "history" =
    some (.ofHost fun call : Call FileTree => history call.args call.context) :=
  rfl

/-- A text of digits that is no numeral is refused too late. -/
theorem history_of_uncountable {args : List String} {arg : String} (hArg : arg ∈ args.head?)
    (h : Uncountable arg) (ctx : Context FileTree) (host : Host FileTree) :
    ∃ e : Numeral.IntegerError,
      Numeral.readInt arg = .error e ∧ history args ctx host = .error (.value e.message) host := by
  cases args with
  | nil => cases hArg
  | cons first args =>
      obtain rfl : first = arg := Option.some.inj hArg
      cases hRead : Numeral.readInt first with
      | ok n => exact absurd h ((exists_readInt_iff h.1).mp ⟨n, hRead⟩)
      | error e =>
          refine ⟨e, rfl, ?_⟩
          simp only [history, h.1, hRead]
          rfl

/-- **Which calls of core commands end with an outcome**: all of them, but for the ones of
`history` with a text of digits that is no numeral; those let the refusal out. -/
theorem core_answers {name : String} {command : Command FileTree}
    (hCore : registry.builtins.get? name = some command) (hName : name ≠ "sleep")
    (call : Call FileTree) (hMemory : call.context.InMemory) (host : Host FileTree) :
    ((¬ ∃ arg ∈ call.args.head?, name = "history" ∧ Uncountable arg) →
        ∃ o, command call host = .ok (some o) host) ∧
      ∀ arg ∈ call.args.head?, name = "history" → Uncountable arg →
        ∃ e : Numeral.IntegerError, Numeral.readInt arg = .error e ∧
          command call host = .error (.fault (.value e.message)) host := by
  constructor
  · intro hCountable
    obtain ⟨question, ⟨answer, hRun, hOut⟩, hCommand⟩ := onlyAsks_of_get? hCore hName call hMemory
    have hHost := hRun host
    cases hAnswer : answer host.store with
    | ok o =>
        rw [hAnswer] at hHost
        exact ⟨o, by rw [hCommand, ← bind_pure_comp, bind_of_ok hHost]; rfl⟩
    | error r =>
        obtain ⟨rfl, arg, hArg, hUncountable, -⟩ := hOut _ r hAnswer
        exact absurd ⟨arg, hArg, rfl, hUncountable⟩ hCountable
  · rintro arg hArg rfl hUncountable
    obtain rfl := Option.some.inj (get?_history.symm.trans hCore)
    obtain ⟨e, hRead, hRun⟩ := history_of_uncountable hArg hUncountable call.context host
    refine ⟨e, hRead, ?_⟩
    show (some <$> raising (history call.args call.context)) host = _
    have hRaised : raising (history call.args call.context) host =
        .error (.fault (.value e.message)) host := by
      unfold raising
      rw [hRun]
    rw [← bind_pure_comp, bind_of_error hRaised]

theorem core_answers_superscript :
    (∃ e : Numeral.IntegerError, Numeral.readInt "²" = .error e ∧
      (Command.ofHost fun call : Call FileTree => history call.args call.context)
          { args := ["²"], context := {}, catalogue := {} } ⟨FileTree.empty, none, #[]⟩ =
        .error (.fault (.value e.message)) ⟨FileTree.empty, none, #[]⟩) ∧
    ∃ o, (Command.ofHost fun call : Call FileTree => history call.args call.context)
        { args := ["2"], context := {}, catalogue := {} } ⟨FileTree.empty, none, #[]⟩ =
      .ok (some o) ⟨FileTree.empty, none, #[]⟩ := by
  have hDigit : Uncountable "²" := ⟨by decide, .inl ⟨'²', by decide, by decide⟩⟩
  refine ⟨(core_answers get?_history (by decide) _ (fun _ hNone => by cases hNone) _).2 "²" rfl rfl
      hDigit,
    (core_answers get?_history (by decide) _ (fun _ hNone => by cases hNone) _).1 ?_⟩
  rintro ⟨arg, hArg, -, -, hBad⟩
  obtain rfl : "2" = arg := Option.some.inj hArg
  rcases hBad with ⟨c, hMem, hNone⟩ | hLong
  · obtain rfl : c = '2' := List.mem_singleton.mp hMem
    exact absurd hNone (by decide)
  · exact absurd hLong (by decide)

end Builtin

end MemShell
