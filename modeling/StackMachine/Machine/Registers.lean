import StackMachine.Isa.Register
import StackMachine.Word

/-!
# StackMachine.Machine.Registers

The contents of the four registers.

* `Registers.get`, `Registers.set`: reading and writing one of them.
-/

namespace StackMachine

structure Registers where
  ax : Word
  bx : Word
  cx : Word
  dx : Word
deriving DecidableEq

namespace Registers

def zero : Registers := ⟨.zero, .zero, .zero, .zero⟩

def get (s : Registers) : Reg → Word
  | .ax => s.ax
  | .bx => s.bx
  | .cx => s.cx
  | .dx => s.dx

def set (s : Registers) : Reg → Word → Registers
  | .ax, w => { s with ax := w }
  | .bx, w => { s with bx := w }
  | .cx, w => { s with cx := w }
  | .dx, w => { s with dx := w }

theorem get_zero (r : Reg) : zero.get r = .zero := by cases r <;> rfl

theorem get_set (s : Registers) (r r' : Reg) (w : Word) :
    (s.set r w).get r' = if r' = r then w else s.get r' := by
  cases r <;> cases r' <;> rfl

end Registers
end StackMachine
