import StackMachine.Machine.Processor
import StackMachine.Shell.Shell

/-!
# StackMachine.Shell.World

A host that is a value: a directory, and a processor whose channels are the program's own.

* `World`: the value; a run is given up after `World.patience` steps.
* `World.run`: a command line, and the world after it; none if a run was given up.
-/

namespace StackMachine

structure World where
  directory : Directory
  processor : Processor
  patience : Nat

/-- Changes a world, or gives up. -/
abbrev WorldM := StateT World Option

namespace World

/-- The world before a command: nothing is printed yet. -/
def before (directory : Directory) (input : Input) (patience : Nat) : World :=
  ⟨directory, ⟨input, .unlimited⟩, patience⟩

def start (directory : Directory) (stdin : List UInt8) (patience : Nat) : World :=
  before directory (.ofBytes stdin none) patience

def print (w : World) (text : String) : Bool × World :=
  let (refusal, output) := w.processor.output.write (Utf8.encode text)
  (refusal.isNone, { w with processor.output := output })

def change (w : World) (d : Except FileError Directory) : Except FileError Unit × World :=
  match d with
  | .error e => (.error e, w)
  | .ok d => (.ok (), { w with directory := d })

def execute (w : World) (code : Code) : Option (Verdict × World) :=
  (w.processor.execute (fun _ _ => ()) code w.patience ()).map fun x =>
    (x.verdict, { w with processor := x.processor })

end World

instance : Host WorldM where
  print text w := some (w.print text)
  read path w := some (w.directory.read path, w)
  create path content w := some (w.change (w.directory.create path content))
  rename source dest w := some (w.change (w.directory.rename source dest))
  remove path w := some ((), { w with directory := w.directory.remove path })
  execute code w := w.execute code
  log _ w := some ((), w)

def World.run (w : World) (args : List String) : Option (Exit × World) :=
  (Shell.answer args : WorldM Exit).run w

def World.stdout (w : World) : List UInt8 := w.processor.output.written.toList

end StackMachine
