/-!
# StackMachine.Shell.Arguments

The command line.

* `Command`: what can be asked for.
* `Request`: a command, the version, the help, or a line that asks for nothing.
* `Request.ofArguments`: reads the arguments.

Flags may stand before or after files; `--` ends them, so that a file may begin with a hyphen. A
lone hyphen is a file. No flag may be repeated, and no file name may be empty.
-/

namespace StackMachine

inductive Command where
  /-- Writes the code of a text to a file, by default the source with the extension `bin`. -/
  | assemble (source : String) (dest : Option String)
  /-- Executes a file of code. -/
  | exec (file : String) (minimal : Bool)
  /-- Executes a file of text or code, known by its extension. -/
  | run (file : String) (minimal : Bool)
  /-- Assembles a text and writes nothing. -/
  | check (file : String)
deriving DecidableEq

inductive Request where
  | command (c : Command)
  | version
  | help
  | misuse
deriving DecidableEq

structure Arguments where
  files : List String
  minimal : Bool

inductive Verb where
  | assemble
  | exec
  | run
  | check
deriving DecidableEq

namespace Verb

def ofName? : String → Option Verb
  | "assemble" => some assemble
  | "exec" => some exec
  | "run" => some run
  | "check" => some check
  | _ => none

def takesMinimal : Verb → Bool
  | exec => true
  | run => true
  | assemble => false
  | check => false

def mostFiles : Verb → Nat
  | assemble => 2
  | exec => 1
  | run => 1
  | check => 1

def request : Verb → Arguments → Request
  | assemble, ⟨[source], _⟩ => .command (.assemble source none)
  | assemble, ⟨[source, dest], _⟩ => .command (.assemble source (some dest))
  | exec, ⟨[file], minimal⟩ => .command (.exec file minimal)
  | run, ⟨[file], minimal⟩ => .command (.run file minimal)
  | check, ⟨[file], _⟩ => .command (.check file)
  | _, _ => .misuse

end Verb

namespace Arguments

def none : Arguments := ⟨[], false⟩

def addFile (v : Verb) (a : Arguments) (file : String) : Except Request Arguments :=
  if file = "" ∨ v.mostFiles ≤ a.files.length then .error .misuse
  else .ok { a with files := a.files ++ [file] }

def addMinimal (v : Verb) (a : Arguments) : Except Request Arguments :=
  if v.takesMinimal && !a.minimal then .ok { a with minimal := true } else .error .misuse

/-- Flags of one letter each, written together. -/
def addLetters (v : Verb) (a : Arguments) : List Char → Except Request Arguments
  | [] => .ok a
  | 'm' :: cs =>
    match a.addMinimal v with
    | .error r => .error r
    | .ok a => a.addLetters v cs
  | 'h' :: _ => .error .help
  | _ :: _ => .error .misuse

def add (v : Verb) (a : Arguments) (arg : String) : Except Request Arguments :=
  match arg.toList with
  | ['-'] => a.addFile v arg
  | '-' :: '-' :: _ =>
    if arg = "--minimal" then a.addMinimal v
    else if arg = "--help" then .error .help
    else .error .misuse
  | '-' :: cs => a.addLetters v cs
  | _ => a.addFile v arg

/-- Reads the arguments of a command; what they ask for instead is the error. -/
def collect (v : Verb) : Arguments → List String → Except Request Arguments
  | a, [] => .ok a
  | a, "--" :: files => files.foldlM (fun a file => a.addFile v file) a
  | a, arg :: args =>
    match a.add v arg with
    | .error r => .error r
    | .ok a => collect v a args

end Arguments

namespace Request

def ofLetters : List Char → Request
  | '-' :: 'V' :: _ => version
  | '-' :: 'h' :: _ => help
  | _ => misuse

def ofTopics : List String → Request
  | [] => help
  | [topic] => if topic = "help" ∨ (Verb.ofName? topic).isSome then help else misuse
  | _ => misuse

def ofArguments : List String → Request
  | [] => misuse
  | "--version" :: _ => version
  | "--help" :: _ => help
  | "help" :: topics => ofTopics topics
  | name :: args =>
    match Verb.ofName? name with
    | none => ofLetters name.toList
    | some v =>
      match Arguments.none.collect v args with
      | .error r => r
      | .ok a => v.request a

end Request
end StackMachine
