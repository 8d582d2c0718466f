import StackMachine.Text.Utf8

/-!
# StackMachine.Text.Span

Places in a source text, counted in bytes of its UTF-8 form.

* `Span`: an offset and a length.
* `Span.finish`: the offset just past it.
-/

namespace StackMachine

/-- `length` bytes from `offset` on. -/
structure Span where
  offset : Nat
  length : Nat
deriving DecidableEq, Inhabited

namespace Span

def finish (s : Span) : Nat := s.offset + s.length

end Span
end StackMachine
