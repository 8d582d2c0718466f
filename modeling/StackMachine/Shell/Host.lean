import StackMachine.Assembly.Emission
import StackMachine.Log.Event
import StackMachine.Shell.Directory

/-!
# StackMachine.Shell.Host

What the command line needs of the system it runs on.

* `Host`: the operations.
* `Failure`: why a command ends without having done its work.
* `Exit`: how the program ends.
-/

namespace StackMachine

class Host (m : Type → Type) where
  /-- Whether the output has taken all of a text. -/
  print : String → m Bool
  read : String → m (Except FileError (List UInt8))
  /-- Makes or replaces a file. -/
  create : String → List UInt8 → m (Except FileError Unit)
  rename : String → String → m (Except FileError Unit)
  remove : String → m Unit
  /-- Executes code on the input and the output. -/
  execute : Code → m Verdict
  log : Event → m Unit

inductive Failure where
  | assembly (e : AssemblyError)
  | file (e : FileError)
  /-- The source is not UTF-8. -/
  | notText
  | emptyFile
  | unknownExtension
  | noExtension

def Failure.message : Failure → String
  | assembly e => e.defect.message
  | file e => e.message
  | notText => "stream did not contain valid UTF-8"
  | emptyFile => "File is empty!"
  | unknownExtension => "File has unknown extension. Exiting..."
  | noExtension => "File has no extension. Exiting..."

structure Exit where
  code : Nat
  failure : Option Failure

namespace Exit

def success : Exit := ⟨0, none⟩

def misuse : Exit := ⟨2, none⟩

/-- How the program breaks off where it cannot print. -/
def unprinted : Exit := ⟨101, none⟩

def ofVerdict : Verdict → Exit
  | .ok _ => success
  | .error _ => ⟨1, none⟩

def ofFailure (f : Failure) : Exit := ⟨1, some f⟩

end Exit
end StackMachine
