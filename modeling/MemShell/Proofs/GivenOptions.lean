import MemShell.Cli

/-!
# Options that are given first

The arguments of the program are read from left to right, and of two values for one option the
later one counts. So an option at the front is a default: what it asks for stands unless a
later argument asks for something else, and it changes nothing about how the later ones are
read, which errors they lead to included (`read_orElse`). What a list of arguments means with
one more option in front of it can therefore be told from what it means by itself.

## Main results

* `read_orElse` — what was given first is a default for the rest.
* `readArgs_noProfile_cons` — the option without a value.
* `readArgs_command_cons` — the option with a line attached.
-/

namespace MemShell.Cli

namespace Options

/-- The first options, and the second where the first say nothing. -/
def orElse (o d : Options) : Options :=
  ⟨o.command.or d.command, o.parse.or d.parse, o.noProfile || d.noProfile, o.debug || d.debug⟩

theorem none_orElse (d : Options) : orElse {} d = d := by
  simp [orElse]

theorem give_orElse (o d : Options) (switch : Switch) (value : String) :
    (o.orElse d).give switch value = (o.give switch value).orElse d := by
  cases switch <;> simp [give, orElse]

end Options

/-- A request with defaults. -/
def Request.orElse (d : Options) : Request → Request
  | help => help
  | run o => run (o.orElse d)

/-- **What was given first** is a default for what follows, and does not change how it is
read. -/
theorem read_orElse (d o : Options) (strays : List String) (args : List Arg) :
    read (o.orElse d) strays args = (read o strays args).map (Request.orElse d) := by
  -- one case for each rule of reading; most of them give an option and go on
  fun_induction read o strays args
  case case8 o strays args letters =>
    rw [read]
    cases checkCluster (startsPlain args) letters.toList <;> rfl
  all_goals simp_all [read, Options.give_orElse, Except.map, Request.orElse]

/-- A switch without a value does not touch the arguments behind it. -/
theorem read_switch_cons {switch : Switch} (hHelp : switch ≠ .help)
    (hValue : switch.takesValue = false) (o : Options) (strays : List String) (args : List Arg) :
    read o strays (.option switch .nothing :: args) = read (o.give switch "") strays args := by
  cases switch with
  | help => exact absurd rfl hHelp
  | command => cases hValue
  | parse => cases hValue
  | noProfile | debug =>
      cases args with
      | nil => rfl
      | cons arg args => cases arg <;> rfl

/-- An argument that is an option, in front of others: what it asks for is a default. -/
theorem readArgs_cons {arg : String} {first : Arg} {d : Options} (hSeparator : arg ≠ "--")
    (hArg : classify arg = .ok first)
    (hRead : ∀ args, read {} [] (first :: args) = read d [] args) (args : List String) :
    readArgs (arg :: args) = (readArgs args).map (Request.orElse d) := by
  have hAll : classifyAll (arg :: args) = (classifyAll args).map (first :: ·) := by
    rw [classifyAll, hArg]
    · cases classifyAll args <;> rfl
    · exact hSeparator
  unfold readArgs
  rw [hAll]
  cases hRest : classifyAll args with
  | error e => rfl
  | ok rest =>
      show read {} [] (first :: rest) = (read {} [] rest).map (Request.orElse d)
      rw [hRead, ← read_orElse, Options.none_orElse]

/-- **The profile is to be left out**: nothing else changes. -/
theorem readArgs_noProfile_cons (args : List String) :
    readArgs ("--no-profile" :: args) =
      (readArgs args).map (Request.orElse { noProfile := true }) :=
  readArgs_cons (by decide)
    (rfl : classify "--no-profile" = .ok (.option .noProfile .nothing))
    (read_switch_cons (by decide) rfl {} []) args

/-- No spelling of an option has an equals sign in it. -/
theorem ofSpelling?_of_mem {s : String} (h : '=' ∈ s.toList) : Switch.ofSpelling? s = none := by
  have hSpellings : ∀ entry ∈ Switch.spellings, '=' ∉ entry.1.toList := by decide
  have hFind : Switch.spellings.find? (·.1 = s) = none := by
    refine List.find?_eq_none.mpr fun entry hMem hSame => hSpellings entry hMem ?_
    rwa [of_decide_eq_true hSame]
  rw [Switch.ofSpelling?, hFind]
  rfl

/-- A line attached to its option is taken as it is. -/
theorem classify_command (line : String) :
    classify ("--command=" ++ line) = .ok (.option .command (.toLong line)) := by
  have hSign : '=' ∈ ("--command=" ++ line).toList := by simp
  have hSpelling : "--command=" = "--command" ++ String.singleton '=' := by decide
  have hCut : Text.cut '=' ("--command=" ++ line) = some ("--command", line) := by
    rw [hSpelling, Text.cut_append (by decide)]
  have hValue : exactWithValue? ("--command=" ++ line) =
      some (.option .command (.toLong line)) := by
    have hLong : Attached.after "--command" line = .toLong line := by
      rw [Attached.after, if_pos (by decide +kernel)]
    have hSwitch : Switch.ofSpelling? "--command" = some .command := by decide
    rw [exactWithValue?, hCut, Option.bind_some]
    simp only [hSwitch, hLong, Option.map_some]
  have hChars : ("--command=" ++ line).toList = '-' :: '-' :: ("command=" ++ line).toList := by
    simp
  unfold classify
  rw [hChars]
  simp only [ofSpelling?_of_mem hSign, hValue]

/-- **A line is given**: it is run unless a later argument gives another one. -/
theorem readArgs_command_cons (line : String) (args : List String) :
    readArgs (("--command=" ++ line) :: args) =
      (readArgs args).map (Request.orElse { command := some (.ofText line) }) := by
  refine readArgs_cons ?_ (classify_command line) (fun rest => rfl) args
  intro hEq
  have hSign : '=' ∈ ("--command=" ++ line).toList := by simp
  rw [hEq] at hSign
  exact absurd hSign (by decide)

end MemShell.Cli
