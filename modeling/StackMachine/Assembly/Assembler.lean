import StackMachine.Assembly.Emission
import StackMachine.Log.Event

/-!
# StackMachine.Assembly.Assembler

From source text to code.

* `assemble`: the code of a text, or its first error.
* `assembleLogged`: the same, with what the log tells of it.
-/

namespace StackMachine

def Listing.event (l : Listing) : Event := .collected l.statements.size l.symbols.size l.size

/-- Collects a text and emits its code. The event stands for the collecting alone. -/
def assembleLogged (source : String) : List Event × Except AssemblyError Code :=
  match Listing.ofText? source.toList with
  | .error e => ([], .error e)
  | .ok l => ([l.event], l.emit)

def assemble (source : String) : Except AssemblyError Code := (assembleLogged source).2

theorem assemble_eq (source : String) :
    assemble source = (Listing.ofText? source.toList).bind Listing.emit := by
  unfold assemble assembleLogged
  cases Listing.ofText? source.toList <;> rfl

end StackMachine
