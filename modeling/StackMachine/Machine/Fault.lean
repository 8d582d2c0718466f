/-!
# StackMachine.Machine.Fault

Why a run ends early.

* `IoError`: a failure of the input or the output.
* `Fault`: all causes; `Fault.message` is the status a failed run reports.
* `Fault.alike`: whether two faults have one cause, whatever the wording.
* `Verdict`: how a run ended, with `Verdict.status`.
* `IoError.describe`, `Fault.describe`, `Verdict.describe`: the same as the log shows them.
-/

namespace StackMachine

inductive IoKind where
  | notFound
  | permissionDenied
  | brokenPipe
  | wouldBlock
  | isADirectory
  | storageFull
  | fileTooLarge
  | uncategorized
  | other
deriving DecidableEq

/-- A failure says what it was made with, or what the system says of the number it gave. -/
inductive IoCause where
  | custom (text : String)
  | system (number : Nat) (text : String)
deriving DecidableEq

instance : Coe String IoCause := ⟨.custom⟩

structure IoError where
  kind : IoKind
  cause : IoCause
deriving DecidableEq

inductive Fault where
  | unrecognizedCommand
  | commandArgument
  | callStackUnderflow
  | dataStackUnderflow
  | invalidInstructionPointer
  | invalidRamAddress
  | io (e : IoError)
deriving DecidableEq

namespace IoKind

def name : IoKind → String
  | notFound => "NotFound"
  | permissionDenied => "PermissionDenied"
  | brokenPipe => "BrokenPipe"
  | wouldBlock => "WouldBlock"
  | isADirectory => "IsADirectory"
  | storageFull => "StorageFull"
  | fileTooLarge => "FileTooLarge"
  | uncategorized => "Uncategorized"
  | other => "Other"

def ofNumber : Nat → IoKind
  | 1 => permissionDenied
  | 2 => notFound
  | 11 => wouldBlock
  | 13 => permissionDenied
  | 21 => isADirectory
  | 27 => fileTooLarge
  | 28 => storageFull
  | 32 => brokenPipe
  | _ => uncategorized

end IoKind

namespace IoError

/-- A character inside quotation marks. Only those of ASCII are escaped. -/
def escape (c : Char) : String :=
  if c = '\x22' then "\\\""
  else if c = '\x5c' then "\\\\"
  else if c = '\n' then "\\n"
  else if c = '\r' then "\\r"
  else if c = '\t' then "\\t"
  else if c.toNat = 0 then "\\0"
  else if c.toNat < 32 ∨ c.toNat = 127 then
    "\\u\x7b" ++ String.ofList (Nat.toDigits 16 c.toNat) ++ "\x7d"
  else String.singleton c

def quote (text : String) : String := "\"" ++ String.join (text.toList.map escape) ++ "\""

def message (e : IoError) : String :=
  match e.cause with
  | .custom text => text
  | .system number text => text ++ " (os error " ++ number.repr ++ ")"

def describe (e : IoError) : String :=
  match e.cause with
  | .custom text => "Custom \x7b kind: " ++ e.kind.name ++ ", error: " ++ quote text ++ " \x7d"
  | .system number text =>
    "Os \x7b code: " ++ number.repr ++ ", kind: " ++ e.kind.name ++ ", message: " ++ quote text ++
      " \x7d"

end IoError

namespace Fault

def message : Fault → String
  | unrecognizedCommand => "unrecognized command"
  | commandArgument => "command arg error"
  | callStackUnderflow => "call stack underflow"
  | dataStackUnderflow => "data stack underflow"
  | invalidInstructionPointer => "invalid instruction pointer"
  | invalidRamAddress => "invalid RAM address"
  | io e => "io error: " ++ e.message

def name : Fault → String
  | unrecognizedCommand => "UnrecognizedCommand"
  | commandArgument => "CommandArgError"
  | callStackUnderflow => "CallStackUnderflow"
  | dataStackUnderflow => "DataStackUnderflow"
  | invalidInstructionPointer => "InvalidInstructionPointer"
  | invalidRamAddress => "InvalidRamAddress"
  | io _ => "Io"

def describe : Fault → String
  | io e => "Io(" ++ e.describe ++ ")"
  | f => f.name

example : describe (.io ⟨.isADirectory, .system 21 "Is a directory"⟩) =
    "Io(Os \x7b code: 21, kind: IsADirectory, message: \"Is a directory\" \x7d)" := by decide

/-- Two failures of a channel are alike when their kinds are. -/
def alike : Fault → Fault → Bool
  | io a, io b => a.kind = b.kind
  | a, b => a = b

theorem alike_refl (f : Fault) : f.alike f = true := by cases f <;> simp [alike]

end Fault

abbrev Verdict := Except Fault Unit

namespace Verdict

def status : Verdict → String
  | .ok _ => "success"
  | .error f => f.message

def describe : Verdict → String
  | .ok _ => "Ok(())"
  | .error f => "Err(" ++ f.describe ++ ")"

/-- A run that ended well can still fail at the end. -/
def andAlso (v : Verdict) (failure : Option IoError) : Verdict :=
  match v, failure with
  | .ok (), some e => .error (.io e)
  | v, _ => v

theorem andAlso_none (v : Verdict) : v.andAlso none = v := by
  rcases v with f | ⟨⟩ <;> rfl

theorem andAlso_error (f : Fault) (failure : Option IoError) :
    andAlso (.error f) failure = .error f := by cases failure <;> rfl

end Verdict
end StackMachine
