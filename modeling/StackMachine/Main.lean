import StackMachine.Log.Settings
import StackMachine.Machine.Step
import StackMachine.Shell.Shell

/-!
# StackMachine.Main

The program: the command line on the files, the input and the output of the system. Events and
failures are told on the error output.
-/

namespace StackMachine
namespace Console

abbrev ConsoleM := ReaderT Level IO

def eventLine (e : Event) : String :=
  e.level.name ++ " " ++ e.message ++
    String.join (e.fields.map fun f => " " ++ f.1 ++ "=" ++ f.2)

def failureLine : Failure → String
  | .assembly e =>
    e.defect.code ++ ": " ++ e.defect.message ++ " at byte " ++ e.span.offset.repr ++ ": " ++
      e.defect.label ++ (e.defect.help?.map fun h => "\nhelp: " ++ h).getD ""
  | f => f.message

def tell (e : Event) : ConsoleM Unit := do
  if (← read).admits e.level then IO.eprintln (eventLine e)

/-- The number of an error, which some operations give with a minus sign. -/
def errorNumber (code : UInt32) : UInt32 := min code (0 - code)

def fileErrorOf (e : IO.Error) : FileError :=
  match e with
  | .noFileOrDirectory _ _ _ => .notFound
  | .resourceBusy _ _ => .busy
  | .inappropriateType _ code _ =>
    if errorNumber code = 20 then .notADirectory
    else if errorNumber code = 21 then .isADirectory
    else .system (toString e)
  | .invalidArgument _ code _ =>
    if errorNumber code = 36 then .nameTooLong else .system (toString e)
  | _ => .system (toString e)

def attempt {α : Type} (action : IO α) : ConsoleM (Except FileError α) := do
  match ← action.toBaseIO with
  | .ok a => return .ok a
  | .error e => return .error (fileErrorOf e)

def systemError? : IO.Error → Option (UInt32 × String)
  | .alreadyExists _ code text | .otherError code text | .resourceBusy code text
  | .resourceVanished code text | .unsupportedOperation code text | .hardwareFault code text
  | .unsatisfiedConstraints code text | .illegalOperation code text | .protocolError code text
  | .timeExpired code text | .interrupted _ code text | .noFileOrDirectory _ code text
  | .invalidArgument _ code text | .permissionDenied _ code text | .resourceExhausted _ code text
  | .inappropriateType _ code text | .noSuchThing _ code text => some (code, text)
  | .unexpectedEof | .userError _ => none

def channelError (e : IO.Error) : IoError :=
  match systemError? e with
  | none => ⟨.other, toString e⟩
  | some (code, text) =>
    let number := (errorNumber code).toNat
    ⟨.ofNumber number, .system number text⟩

/-- Reads from the system until the next word is settled or nothing more comes. -/
partial def fill (stdin : IO.FS.Stream) (i : Input) : IO Input := do
  if i.settled then return i
  match ← (stdin.read 4096).toBaseIO with
  | .error e => return { i with failure := some (channelError e) }
  | .ok chunk =>
    if chunk.isEmpty then return i
    fill stdin { i with bytes := i.bytes ++ chunk.toList }

def readsNext (code : Code) (s : State) : Bool :=
  match opcodeAt code s.ip with
  | .ok (.plain .input) => true
  | _ => false

def handOn (stdout : IO.FS.Stream) (bytes : Array UInt8) : IO (Option IoError) := do
  if bytes.isEmpty then return none
  match ← (stdout.write ⟨bytes⟩).toBaseIO with
  | .ok () => return none
  | .error e => return some (channelError e)

def finish (stdout : IO.FS.Stream) (s : State) (verdict : Verdict) : ConsoleM Verdict := do
  let flushed ← stdout.flush.toBaseIO
  tell (.finished s.ip s.store.data.length s.calls.length verdict)
  match flushed with
  | .ok () => return verdict
  | .error e => return verdict.andAlso (some (channelError e))

/-- Makes steps until the run ends. What a step prints is handed on at once. -/
partial def advance (stdin stdout : IO.FS.Stream) (code : Code) (s : State) :
    ConsoleM Verdict := do
  let input ← if readsNext code s then fill stdin s.store.input else pure s.store.input
  let made := step code { s with store.input := input }
  made.events.forM tell
  let failed ← handOn stdout made.state.store.output.written
  let s := { made.state with store.output := .unlimited }
  match failed, made.outcome with
  | some e, _ => finish stdout s (.error (.io e))
  | none, .running => advance stdin stdout code s
  | none, .halted => finish stdout s (.ok ())
  | none, .failed f => finish stdout s (.error f)

instance : Host ConsoleM where
  print text := do
    let stdout ← IO.getStdout
    match ← (do stdout.putStr text; stdout.flush : IO Unit).toBaseIO with
    | .ok () => return true
    | .error _ => return false
  read path := attempt do return (← IO.FS.readBinFile path).toList
  create path content := attempt (IO.FS.writeBinFile path ⟨content.toArray⟩)
  rename source dest := attempt (IO.FS.rename source dest)
  remove path := do
    let _ ← attempt (IO.FS.removeFile path)
  execute code := do
    advance (← IO.getStdin) (← IO.getStdout) code (.start (.ofBytes [] none) .unlimited)
  log := tell

def run (args : List String) : IO UInt32 := do
  match Settings.unset.init (← IO.getEnv logVariable) >>= Settings.level with
  | .error e => throw (IO.userError e.message)
  | .ok level =>
    let exit ← (Shell.answer args : ConsoleM Exit).run level
    if let some f := exit.failure then
      IO.eprintln ("Error: " ++ failureLine f)
    return UInt32.ofNat exit.code

end Console
end StackMachine

def main (args : List String) : IO UInt32 := StackMachine.Console.run args
