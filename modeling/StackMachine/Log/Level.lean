import StackMachine.Decimal.Digits
import StackMachine.Text.Blank

/-!
# StackMachine.Log.Level

How severe an event is.

* `Level.admits`: whether a limit lets an event through.
* `Level.ofText?`: reads a level by name, in any case, or by number.
* `Level.chosen`: the limit that a setting asks for, `warn` if it asks for none.
-/

namespace StackMachine

/-- From the most severe to the least. -/
inductive Level where
  | error
  | warn
  | info
  | debug
  | trace
deriving DecidableEq

namespace Level

def rank : Level → Nat
  | error => 1
  | warn => 2
  | info => 3
  | debug => 4
  | trace => 5

def all : List Level := [error, warn, info, debug, trace]

def name : Level → String
  | error => "ERROR"
  | warn => "WARN"
  | info => "INFO"
  | debug => "DEBUG"
  | trace => "TRACE"

def admits (limit l : Level) : Bool := l.rank ≤ limit.rank

/-- A level by number; the number may have a plus sign and leading zeros. -/
def ofNumber? (cs : List Char) : Option Level :=
  let digits := match cs with
    | '+' :: ds => ds
    | ds => ds
  (Decimal.natural? digits).bind fun n => all.find? fun l => l.rank == n

def ofName? (cs : List Char) : Option Level :=
  match cs.map Char.toLower with
  | ['e', 'r', 'r', 'o', 'r'] => some error
  | ['w', 'a', 'r', 'n'] => some warn
  | ['i', 'n', 'f', 'o'] => some info
  | ['d', 'e', 'b', 'u', 'g'] => some debug
  | ['t', 'r', 'a', 'c', 'e'] => some trace
  | _ => none

def ofText? (cs : List Char) : Option Level := (ofNumber? cs).or (ofName? cs)

/-- The limit asked for; blanks around the text do not count. -/
def chosen (setting : Option String) : Level :=
  (setting.bind fun s => ofText? (Text.trim s.toList)).getD warn

theorem admits_refl (l : Level) : l.admits l = true := by simp [admits]

theorem chosen_none : chosen none = warn := rfl

end Level
end StackMachine
