import StackMachine.Isa.Instr
import StackMachine.Text.Span

/-!
# StackMachine.Assembly.Statement

The statements of a program: instructions with named jump targets, and label definitions.

* `Label`: a name and where it was written.
* `Statement`: an instruction or a definition; `Statement.size` is what it adds to the code.
-/

namespace StackMachine

structure Label where
  name : String
  span : Span
deriving DecidableEq

inductive Statement where
  | instr (i : Instr Label)
  /-- Names the address of the next instruction and takes no room itself. -/
  | label (l : Label)
deriving DecidableEq

namespace Statement

def size : Statement → Nat
  | instr i => i.size
  | label _ => 0

@[simp] theorem size_label (l : Label) : (label l).size = 0 := rfl

end Statement
end StackMachine
