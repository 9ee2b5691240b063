import MemShell.Table
import MemShell.Text.Quoted

/-!
# Changes that commands ask for

A command cannot change the session that runs it: it gives back the changes
that it wants made, and the session makes them once the whole tree has ended.
On the way up the changes of several commands are merged into one value.

Merging follows the order of the commands. What a later command sets wins over
what an earlier one set or removed, and what it removes takes back what an
earlier one set; lines to run are collected, and a later directory or exit
status replaces an earlier one.

Within one value, names are removed after others are set in the environment,
but set after others are removed among the aliases, since clearing all aliases
and then defining some is a thing one command line may do.

## Main results

* `merge_empty` — merging with the empty value on the right changes nothing.
-/

namespace MemShell

/-- Changes to a session. -/
structure Changes where
  exports : Table String String := ∅
  unsets : List String := []
  aliases : Table String String := ∅
  unaliases : List String := []
  /-- Whether all aliases are removed first. -/
  clearAliases : Bool := false
  chdir : Option String := none
  sourceLines : List String := []
  /-- The status to leave the session with. -/
  exitCode : Option Int := none
deriving DecidableEq

namespace Changes

def empty : Changes := {}

instance : Inhabited Changes := ⟨empty⟩

def isEmpty (c : Changes) : Bool :=
  c.exports.isEmpty && c.unsets.isEmpty && c.aliases.isEmpty && c.unaliases.isEmpty &&
    !c.clearAliases && c.chdir.isNone && c.sourceLines.isEmpty && c.exitCode.isNone

/-- Adds a name to a list of names unless it is there already. -/
def addName (names : List String) (name : String) : List String :=
  if name ∈ names then names else names ++ [name]

/-- The pending settings and removals of a kind of names: a table of values to
set and a list of names to remove. -/
structure Pending where
  set : Table String String
  removed : List String

namespace Pending

/-- Asks for a setting; one earlier removal of the name is taken back. -/
def enter (p : Pending) (entry : String × String) : Pending :=
  ⟨p.set.insert entry.1 entry.2, p.removed.erase entry.1⟩

/-- Asks for a removal; an earlier setting of the name is taken back. -/
def remove (p : Pending) (name : String) : Pending :=
  ⟨p.set.erase name, addName p.removed name⟩

end Pending

/-- The changes of `a` followed by those of `b`, as one value. -/
def merge (a b : Changes) : Changes :=
  let vars := b.unsets.foldl Pending.remove
    (b.exports.entries.foldl Pending.enter ⟨a.exports, a.unsets⟩)
  let kept : Pending := if b.clearAliases then ⟨∅, []⟩ else ⟨a.aliases, a.unaliases⟩
  let names := b.aliases.entries.foldl Pending.enter (b.unaliases.foldl Pending.remove kept)
  { exports := vars.set
    unsets := vars.removed
    aliases := names.set
    unaliases := names.removed
    clearAliases := a.clearAliases || b.clearAliases
    chdir := b.chdir.or a.chdir
    sourceLines := a.sourceLines ++ b.sourceLines
    exitCode := b.exitCode.or a.exitCode }

/-- Merging with the empty value on the right changes nothing. -/
@[simp] theorem merge_empty (a : Changes) : a.merge empty = a := by
  cases a
  simp [merge, empty, EmptyCollection.emptyCollection, Table.empty]

/-- Shows an optional value; nothing is shown as a word. -/
def displayOption (f : α → String) : Option α → String
  | none => "None"
  | some a => f a

/-- The changes as a value on one line. -/
def display (c : Changes) : String :=
  "PendingMutations(exports=" ++ Text.quotePairs c.exports.entries ++
    ", unsets=" ++ Text.quoteList c.unsets ++
    ", aliases=" ++ Text.quotePairs c.aliases.entries ++
    ", unaliases=" ++ Text.quoteList c.unaliases ++
    ", clear_aliases=" ++ (if c.clearAliases then "True" else "False") ++
    ", chdir=" ++ displayOption Text.quote c.chdir ++
    ", source_lines=" ++ Text.quoteList c.sourceLines ++
    ", exit_code=" ++ displayOption toString c.exitCode ++ ")"

end Changes

end MemShell
