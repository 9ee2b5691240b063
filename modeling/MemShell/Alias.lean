import MemShell.Table
import MemShell.Token.Scan

/-!
# Aliases

An alias replaces a word that stands where a command name stands by the tokens
of its value, and the tokens of a value are expanded in turn. Inside its own
value a name is not replaced again, so tables that refer to themselves, directly
or in a circle, come to an end.

The expansion carries the aliases that are still *live*: replacing a name takes
it out of the table for the expansion of its value. Each nested expansion
therefore works on a smaller table, and that is the reason it ends; the names
replaced along a chain are distinct for the same reason.

## Main results

* `expandLive_nil`, `expandLive_cons_of_command`, `expandLive_cons_keep` — the
  three cases of the expansion as equations.
* `expandLive_of_isEmpty` — without aliases nothing changes.
-/

namespace MemShell

/-- Where the reader of aliases stands inside a command. -/
inductive Position where
  | command
  | argument
deriving DecidableEq, Repr

namespace Position

def name : Position → String
  | command => "command"
  | argument => "argument"

/-- The position after a token. A redirection changes nothing: after `> file`
at the start of a command, the file name counts as its first word. -/
def next (p : Position) (t : Token) : Position :=
  if t.kind.isBoundary then command
  else if t.kind.isText then argument
  else p

end Position

namespace Token

/-- Expands tokens with the aliases that are still live. -/
def expandLive (live : Table String String) :
    Position → List Token → Except LexError (List Token)
  | _, [] => .ok []
  | position, t :: ts =>
      match _hLive : if position = .command ∧ t.kind = .word then live.get? t.value else none with
      | some value =>
          match tokenize value with
          | .error e => .error e
          | .ok replacement =>
              match expandLive (live.erase t.value) .command replacement with
              | .error e => .error e
              | .ok expanded =>
                  match expandLive live .argument ts with
                  | .error e => .error e
                  | .ok rest => .ok (expanded ++ rest)
      | none =>
          match expandLive live (position.next t) ts with
          | .error e => .error e
          | .ok rest => .ok (t :: rest)
termination_by _ ts => (live.size, ts.length)
decreasing_by
  · apply Prod.Lex.left
    have hGet : live.get? t.value = some value := by
      split at _hLive
      · exact _hLive
      · simp at _hLive
    exact Table.size_erase_lt hGet
  · exact Prod.Lex.right _ (by simp)
  · exact Prod.Lex.right _ (by simp)

/-- Expands the aliases of a table, from the start of a command. -/
def expandAliases (aliases : Table String String) (ts : List Token) :
    Except LexError (List Token) :=
  expandLive aliases .command ts

/-- Expands the aliases of a table; names in `visited` are left as they are. -/
def expandAliasesExcept (visited : List String) (aliases : Table String String)
    (ts : List Token) : Except LexError (List Token) :=
  expandAliases (aliases.filterKeys (· ∉ visited)) ts

theorem expandLive_nil (live : Table String String) (p : Position) :
    expandLive live p [] = .ok [] := by
  rw [expandLive]

/-- A word in command position that names a live alias is replaced. -/
theorem expandLive_cons_of_command {live : Table String String} {t : Token} {value : String}
    (hWord : t.kind = .word) (hGet : live.get? t.value = some value) (ts : List Token) :
    expandLive live .command (t :: ts) = (do
      let replacement ← tokenize value
      let expanded ← expandLive (live.erase t.value) .command replacement
      let rest ← expandLive live .argument ts
      pure (expanded ++ rest)) := by
  rw [expandLive]
  split
  · rename_i v hLive
    have hv : v = value := by simpa [hWord, hGet] using hLive.symm
    subst hv
    cases tokenize v with
    | error e => rfl
    | ok replacement =>
        simp only [bind, Except.bind]
        cases expandLive (live.erase t.value) .command replacement with
        | error e => rfl
        | ok expanded =>
            simp only
            cases expandLive live .argument ts <;> rfl
  · rename_i hLive
    simp [hWord, hGet] at hLive

/-- Any other token is kept. -/
theorem expandLive_cons_keep {live : Table String String} {p : Position} {t : Token}
    (h : p = .command → t.kind = .word → live.get? t.value = none) (ts : List Token) :
    expandLive live p (t :: ts) = (expandLive live (p.next t) ts).map (t :: ·) := by
  rw [expandLive]
  split
  · rename_i value hLive
    split at hLive
    · rename_i hBoth
      simp [h hBoth.1 hBoth.2] at hLive
    · simp at hLive
  · cases expandLive live (p.next t) ts <;> rfl

/-- Without aliases nothing changes. -/
theorem expandLive_of_isEmpty {live : Table String String} (h : live.entries = [])
    (p : Position) (ts : List Token) : expandLive live p ts = .ok ts := by
  induction ts generalizing p with
  | nil => exact expandLive_nil live p
  | cons t ts ih =>
      rw [expandLive_cons_keep (fun _ _ => by simp [Table.get?, h, Table.lookup]), ih]
      rfl

end Token

end MemShell
