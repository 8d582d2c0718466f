import StackMachine.Text.Span

/-!
# StackMachine.Assembly.Error

Why a text cannot be assembled. The first error ends the assembly.

* `Defect`: what is wrong.
* `AssemblyError`: a defect and its place.
* `Defect.message`, `Defect.code`, `Defect.help?`, `Defect.label`: how it is reported.
-/

namespace StackMachine

inductive Defect where
  | unknownMnemonic (name : String)
  | emptyArgument (mnemonic : String)
  | invalidRegister (mnemonic name : String)
  | invalidAddress (mnemonic text : String)
  | invalidLabel (name : String)
  | duplicateLabel (name : String)
  | unresolvedLabel (name : String)
  | offsetOutOfRange (name : String)
deriving DecidableEq

structure AssemblyError where
  defect : Defect
  span : Span
deriving DecidableEq

namespace Defect

def message : Defect → String
  | unknownMnemonic name => s!"Unknown mnemonic `{name}`"
  | emptyArgument mnemonic => s!"Command argument of `{mnemonic}` cannot be empty"
  | invalidRegister mnemonic name => s!"Invalid register `{name}` in `{mnemonic}` command"
  | invalidAddress mnemonic text => s!"Invalid address `{text}` in `{mnemonic}` command"
  | invalidLabel name => s!"Invalid label `{name}`"
  | duplicateLabel name => s!"Duplicate label `{name}`"
  | unresolvedLabel name => s!"Unresolved label `{name}`"
  | offsetOutOfRange name => s!"Jump to `{name}` does not fit in a 32-bit offset"

def code : Defect → String
  | unknownMnemonic _ => "asm::unknown_mnemonic"
  | emptyArgument _ => "asm::empty_argument"
  | invalidRegister _ _ => "asm::invalid_register"
  | invalidAddress _ _ => "asm::invalid_address"
  | invalidLabel _ => "asm::invalid_label"
  | duplicateLabel _ => "asm::duplicate_label"
  | unresolvedLabel _ => "asm::unresolved_label"
  | offsetOutOfRange _ => "asm::offset_range"

def help? : Defect → Option String
  | unknownMnemonic _ => some "check the list of available instructions in the documentation."
  | emptyArgument _ => some "operands must be written on the same line as their instruction."
  | invalidRegister _ _ => some "available registers are ax, bx, cx and dx."
  | invalidAddress _ _ => some "addresses must be integers from 0 to 2147483647, like [16]."
  | invalidLabel _ => some "labels are plain identifiers; definitions end with `:`, like `loop:`."
  | duplicateLabel _ => some "labels may only be defined once per file."
  | unresolvedLabel name => some s!"define the label somewhere in the file, like `{name}:`."
  | offsetOutOfRange _ => none

/-- The note written at the place itself. -/
def label : Defect → String
  | unknownMnemonic _ => "unknown instruction"
  | emptyArgument _ => "missing operand"
  | invalidRegister _ _ => "not a register"
  | invalidAddress _ _ => "invalid address"
  | invalidLabel _ => "invalid label"
  | duplicateLabel _ => "duplicate label"
  | unresolvedLabel _ => "no such label"
  | offsetOutOfRange _ => "target too far away"

end Defect
end StackMachine
