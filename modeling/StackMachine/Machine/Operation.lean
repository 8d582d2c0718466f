import StackMachine.Isa.Opcode
import StackMachine.Word

/-!
# StackMachine.Machine.Operation

What the arithmetic opcodes compute and what the conditional jumps test.

* `Arith.apply`, `Func.apply`: the results.
* `Cond.holds`: whether a conditional jump is taken.
* `Jump.taken?`: the same for any jump, nothing for one without a test.

The left operand is the one pushed first.
-/

namespace StackMachine

def Arith.apply : Arith → Word → Word → Word
  | add => Word.add
  | sub => Word.sub
  | mul => Word.mul
  | div => Word.div

def Func.apply : Func → Word → Word
  | sin => Word.sin
  | cos => Word.cos
  | sqrt => Word.sqrt

/-- Equality has a tolerance, and an order needs the values to differ by more than it. -/
def Cond.holds : Cond → Word → Word → Bool
  | equal, l, r => l.near r
  | notEqual, l, r => !l.near r
  | above, l, r => l.exceeds r
  | aboveOrEqual, l, r => l.exceeds r || l.near r
  | below, l, r => l.fallsShort r
  | belowOrEqual, l, r => l.fallsShort r || l.near r

def Jump.taken? : Jump → Word → Word → Option Bool
  | always, _, _ => none
  | when c, l, r => some (c.holds l r)
  | call, _, _ => none

theorem Cond.holds_notEqual (l r : Word) : notEqual.holds l r = !equal.holds l r := rfl

end StackMachine
