import MemShell.FileTree
import MemShell.Numeral.Decimal

/-!
# Where commands act

Commands and stores act on a `Host`: the state of the store, the signal that
asks a running line to stop, and notes about what was done. The state of the
store is a type parameter, and a `Storage` is the set of operations on it, so
what is said about the shell is said for every store, including one that fails
at every call or stops the line behind its back.

A store need not know about directories: `isDir` may be missing. Every call may
fail with a fault, and whatever it did to the host before that stays done.

`Storage.memory` is the store kept in memory.

## Main results

* `Storage.memory_read`, `Storage.memory_contains` — reading leaves the host as
  it is.
-/

namespace MemShell

/-- The signal that asks a line to stop. -/
structure Signal where
  /-- Whether it is up. -/
  raised : Bool
  /-- Whether the first command that waits puts it up. -/
  onWait : Bool
deriving DecidableEq, Repr

/-- Something worth writing down that a store or a command did. -/
inductive Note where
  /-- A file of so many characters was written. -/
  | wrote (location : Location) (length : Nat)
  /-- So many characters were added to a file. -/
  | appended (location : Location) (length : Nat)
  /-- A command waited for so many seconds. -/
  | waited (seconds : Numeral.Decimal)
deriving DecidableEq, Repr

/-- What commands and stores act on. -/
structure Host (σ : Type) where
  store : σ
  /-- The signal that is watched, if any. -/
  signal : Option Signal
  /-- Notes in order. -/
  notes : Array Note

/-- An action on a host that may fail with an `ε`. -/
abbrev HostM (ε σ α : Type) := EStateM ε (Host σ) α

/-- The operations of a store. -/
structure Storage (σ : Type) where
  read : String → HostM Fault σ String
  write : String → String → HostM Fault σ Unit
  append : String → String → HostM Fault σ Unit
  /-- Whether a path names anything. -/
  contains : String → HostM Fault σ Bool
  /-- Whether a path names a directory, if the store can tell. -/
  isDir : Option (String → HostM Fault σ Bool)

namespace Storage

/-- Asks the store kept in memory. -/
def ask {α : Type} (question : FileTree → Except Fault α) : HostM Fault FileTree α := fun h =>
  match question h.store with
  | .ok a => .ok a h
  | .error f => .error f h

/-- Changes the store kept in memory and writes a note. -/
def change (act : FileTree → Except Fault FileTree) (note : Note) :
    HostM Fault FileTree Unit := fun h =>
  match act h.store with
  | .ok t => .ok () { h with store := t, notes := h.notes.push note }
  | .error f => .error f h

/-- The store kept in memory. -/
def memory : Storage FileTree where
  read := fun path => ask (·.read path)
  write := fun path content =>
    change (·.write path content) (.wrote (.ofText path) content.length)
  append := fun path content =>
    change (·.append path content) (.appended (.ofText path) content.length)
  contains := fun path => ask fun t => .ok (t.contains path)
  isDir := some fun path => ask fun t => .ok (t.isDir path)

/-- Reading leaves the host as it is. -/
theorem memory_read (path : String) (h : Host FileTree) :
    memory.read path h =
      match h.store.read path with
      | .ok content => .ok content h
      | .error f => .error f h := by
  cases hRead : h.store.read path <;> simp [memory, ask, hRead]

theorem memory_contains (path : String) (h : Host FileTree) :
    memory.contains path h = .ok (h.store.contains path) h :=
  rfl

end Storage

end MemShell
