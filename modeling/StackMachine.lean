import StackMachine.Word
import StackMachine.Bytes.LittleEndian
import StackMachine.Decimal.Literal
import StackMachine.Decimal.Display
import StackMachine.Text.Blank
import StackMachine.Text.Span
import StackMachine.Isa.Instr
import StackMachine.Source.Statement
import StackMachine.Assembly.Emission
import StackMachine.Machine.Registers
import StackMachine.Machine.Ram
import StackMachine.Machine.Input
import StackMachine.Machine.Output
import StackMachine.Log.Settings
import StackMachine.Machine.Session
import StackMachine.Shell.World
import StackMachine.Main
import StackMachine.Proofs.Assembly.Layout
import StackMachine.Proofs.Machine.Fetch
import StackMachine.Proofs.Assembly.Placement
import StackMachine.Proofs.Assembly.Disassembly
import StackMachine.Proofs.Machine.Execution
import StackMachine.Proofs.Machine.Lockstep
import StackMachine.Proofs.Machine.Boundaries
import StackMachine.Proofs.Machine.Faults
import StackMachine.Proofs.Machine.Failure
import StackMachine.Proofs.Decimal.Numeral
import StackMachine.Proofs.Source.Lines
import StackMachine.Proofs.Source.Grammar
import StackMachine.Proofs.Source.Reading
import StackMachine.Proofs.Source.Program
import StackMachine.Proofs.Assembly.Collection
import StackMachine.Proofs.Assembly.Linking
import StackMachine.Proofs.Assembly.Relabeling
import StackMachine.Proofs.Assembly.Composition
import StackMachine.Proofs.Assembly.Rejection
import StackMachine.Proofs.Assembly.Places
import StackMachine.Proofs.Machine.Guarded
import StackMachine.Proofs.Machine.Safety
import StackMachine.Proofs.Text.Decoding
import StackMachine.Proofs.Text.Words
import StackMachine.Proofs.Machine.Unread
import StackMachine.Proofs.Machine.Channels
import StackMachine.Proofs.Machine.Lifetime
import StackMachine.Proofs.Machine.Isolation
import StackMachine.Proofs.Source.Splitting
import StackMachine.Proofs.Source.Bookkeeping
import StackMachine.Proofs.Source.Tiling
import StackMachine.Proofs.Machine.Relocation
import StackMachine.Proofs.Shell.Lookup
import StackMachine.Proofs.Shell.Saving
import StackMachine.Proofs.Text.Strict
import StackMachine.Proofs.Shell.Assembling
import StackMachine.Proofs.Shell.Agreement
import StackMachine.Proofs.Shell.Footprint
import StackMachine.Proofs.Machine.Memory
import StackMachine.Proofs.Machine.Nesting
import StackMachine.Proofs.Machine.Underneath
import StackMachine.Proofs.Assembly.Acceptance
import StackMachine.Proofs.Machine.Termination
import StackMachine.Proofs.Machine.History
import StackMachine.Proofs.Machine.Limits
import StackMachine.Proofs.Assembly.Writing
import StackMachine.Proofs.Assembly.Renaming
import StackMachine.Proofs.Machine.Chronicle
import StackMachine.Proofs.Source.Case
import StackMachine.Proofs.Source.Roles
import StackMachine.Proofs.Source.Presentation
import StackMachine.Proofs.Assembly.Respelling
