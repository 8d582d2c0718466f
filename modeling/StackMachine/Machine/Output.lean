import StackMachine.Machine.Fault

/-!
# StackMachine.Machine.Output

The output channel.

* `Output.write`: appends bytes; a limited output takes those it has room for and then fails.
* `Output.flush`: hands everything on, which may fail.
-/

namespace StackMachine

/-- A limit is a number of bytes in all, and the failure that the first byte beyond it meets. -/
structure Output where
  written : Array UInt8
  limit : Option (Nat × IoError)
  flushFailure : Option IoError

namespace Output

def unlimited : Output := ⟨#[], none, none⟩

def accepts (o : Output) (bs : List UInt8) : Nat :=
  match o.limit with
  | none => bs.length
  | some (n, _) => min bs.length (n - o.written.size)

def refusal? (o : Output) (bs : List UInt8) : Option IoError :=
  match o.limit with
  | none => none
  | some (n, e) => if o.written.size + bs.length ≤ n then none else some e

def write (o : Output) (bs : List UInt8) : Option IoError × Output :=
  (o.refusal? bs, { o with written := o.written ++ (bs.take (o.accepts bs)).toArray })

def flush (o : Output) : Option IoError := o.flushFailure

theorem write_unlimited {o : Output} (h : o.limit = none) (bs : List UInt8) :
    o.write bs = (none, { o with written := o.written ++ bs.toArray }) := by
  simp [write, refusal?, accepts, h]

end Output
end StackMachine
