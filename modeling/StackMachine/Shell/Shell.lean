import StackMachine.Assembly.Assembler
import StackMachine.Shell.Arguments
import StackMachine.Shell.Host

/-!
# StackMachine.Shell.Shell

The commands, on any host.

* `Shell.compile`: the code of a source file; `Shell.load`: the content of a code file.
* `Shell.save`: writes a file through a temporary one beside it.
* `Shell.execute`: runs code and reports its status.
* `Shell.perform`: a command; `Shell.answer`: a command line.
-/

namespace StackMachine
namespace Shell

variable {m : Type → Type} [Monad m] [Host m]

def labelWidth : Nat := 12

def line (label text : String) : String :=
  String.ofList (List.replicate (labelWidth - label.length) ' ') ++ label ++ " " ++ text ++ "\n"

/-- Prints and goes on. The program breaks off where the output does not take the text. -/
def print (text : String) (go : m Exit) : m Exit := do
  if ← Host.print text then go else pure .unprinted

def say (label text : String) (go : m Exit) : m Exit := print (line label text) go

def sayTarget (label path : String) (go : m Exit) : m Exit := say label ("target " ++ path) go

def compile (path : String) : m (Except Failure Code) := do
  match ← Host.read path with
  | .error e => pure (.error (.file e))
  | .ok bytes =>
    match Utf8.strict? bytes with
    | none => pure (.error .notText)
    | some cs =>
      let (events, result) := assembleLogged (String.ofList cs)
      events.forM Host.log
      match result with
      | .error e => pure (.error (.assembly e))
      | .ok code => pure (.ok code)

def load (path : String) : m (Except Failure Code) := do
  match ← Host.read path with
  | .error e => pure (.error (.file e))
  | .ok [] => pure (.error .emptyFile)
  | .ok bytes => pure (.ok bytes.toArray)

def temporary (dest : String) : String := dest ++ ".tmp"

/-- Writes code to a temporary file and moves that to its destination, so that the destination
never holds a part of it. The temporary file does not stay. -/
def save (dest : String) (code : Code) : m (Except Failure Unit) := do
  match ← Host.create (temporary dest) code.toList with
  | .error e =>
    Host.remove (temporary dest)
    pure (.error (.file e))
  | .ok () =>
    match ← Host.rename (temporary dest) dest with
    | .error e =>
      Host.remove (temporary dest)
      pure (.error (.file e))
    | .ok () => pure (.ok ())

def execute (path : String) (code : Code) (minimal : Bool) : m Exit :=
  if minimal then do
    let verdict ← Host.execute code
    print (verdict.status ++ "\n") (pure (.ofVerdict verdict))
  else
    say "Running" "emitted binary" do
      let verdict ← Host.execute code
      say "Status" verdict.status (sayTarget "Completed" path (pure (.ofVerdict verdict)))

def withCode (code : Except Failure Code) (go : Code → m Exit) : m Exit :=
  match code with
  | .error f => pure (.ofFailure f)
  | .ok c => go c

def loadAndExecute (path : String) (minimal : Bool) : m Exit := do
  withCode (← load path) fun code => execute path code minimal

def compileAndExecute (path : String) (minimal : Bool) : m Exit := do
  withCode (← compile path) fun code => execute path code minimal

def runFile (path : String) (minimal : Bool) : m Exit :=
  match Path.extension? path with
  | none => pure (.ofFailure .noExtension)
  | some ext =>
    if ext = "bin" then loadAndExecute path minimal
    else if ext = "asm" then
      if minimal then compileAndExecute path minimal
      else sayTarget "Assembling" path (compileAndExecute path minimal)
    else pure (.ofFailure .unknownExtension)

def saveAndReport (dest : String) (code : Code) : m Exit := do
  match ← save dest code with
  | .error f => pure (.ofFailure f)
  | .ok () =>
    say "Finished" ("emit binary (" ++ code.size.repr ++ " bytes)")
      (sayTarget "Saved" dest (pure .success))

def perform : Command → m Exit
  | .assemble source dest? =>
    sayTarget "Assembling" source do
      withCode (← compile source) (saveAndReport (dest?.getD (Path.withExtension source "bin")))
  | .exec file minimal =>
    if minimal then loadAndExecute file minimal
    else sayTarget "Loading" file (loadAndExecute file minimal)
  | .run file minimal => runFile file minimal
  | .check file =>
    sayTarget "Checking" file do
      withCode (← compile file) fun _ => say "Success" "no errors found!" (pure .success)

def versionText : String := "stackproc 0.1.0\n"

def helpText : String :=
  "Usage: stackproc <COMMAND>\n\nCommands:\n" ++
  "  assemble <NAME> [DEST]      Assemble a text file into a binary file\n" ++
  "  exec [--minimal] <NAME>     Execute a binary file and report its status\n" ++
  "  run [--minimal] <NAME>      Run a text or binary file directly\n" ++
  "  check <NAME>                Check a text file without writing a binary\n"

/-- The texts that tell about the program are asked for, and it ends well even where they cannot be
printed. -/
def answer (args : List String) : m Exit :=
  match Request.ofArguments args with
  | .command c => perform c
  | .version => do
    let _ ← Host.print versionText
    pure .success
  | .help => do
    let _ ← Host.print helpText
    pure .success
  | .misuse => pure .misuse

end Shell
end StackMachine
