import StackMachine.Assembly.Assembler
import StackMachine.Machine.Processor

/-!
# StackMachine.Machine.Session

Several programs, one after another, on one processor.

* `Program`: source text or finished code.
* `Session.play`: runs a program; text that cannot be assembled leaves the processor alone.
* `Session.playAll`: runs a list of them.
-/

namespace StackMachine

inductive Program where
  | text (source : String)
  | code (bytes : Code)

inductive Result where
  | refused (e : AssemblyError)
  | ran (verdict : Verdict) (printed : Array UInt8)

structure Session (α : Type) where
  processor : Processor
  log : α

namespace Session

variable {α : Type}

def prepare : Program → List Event × Except AssemblyError Code
  | .text source => assembleLogged source
  | .code bytes => ([], .ok bytes)

/-- Runs a program for at most `limit` steps; none if it does not end by then. -/
def play (visit : α → Event → α) (limit : Nat) (s : Session α) (p : Program) :
    Option (Result × Session α) :=
  let prepared := prepare p
  let log := prepared.1.foldl visit s.log
  match prepared.2 with
  | .error e => some (.refused e, ⟨s.processor, log⟩)
  | .ok code =>
    (s.processor.execute visit code limit log).map fun x =>
      (.ran x.verdict x.printed, ⟨x.processor, x.log⟩)

def playAll (visit : α → Event → α) (limit : Nat) (s : Session α) :
    List Program → Option (List Result × Session α)
  | [] => some ([], s)
  | p :: ps =>
    match play visit limit s p with
    | none => none
    | some (r, s) =>
      match playAll visit limit s ps with
      | none => none
      | some (rs, s) => some (r :: rs, s)

end Session
end StackMachine
