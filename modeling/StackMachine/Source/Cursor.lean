import StackMachine.Text.Span

/-!
# StackMachine.Source.Cursor

A place in a source text, with the characters read since the current token began.

* `Unread`: the end of a text, which knows its size.
* `Cursor.fresh`: a cursor at which no token has begun; `Cursor.ofText` is one before a whole text.
* `Cursor.first`, `Cursor.atEnd`: what comes next, and whether anything does.
* `Cursor.bump`, `Cursor.readWhile`, `Cursor.takeWhile`: reading one character, or as many as pass a
  test.
* `Cursor.position`: bytes read since the token began; `Cursor.reset` begins a new token.
-/

namespace StackMachine

structure Unread where
  chars : List Char
  size : Nat
  size_eq : size = Utf8.size chars

namespace Unread

def ofList (cs : List Char) : Unread := ⟨cs, Utf8.size cs, rfl⟩

def tail : Unread → Unread
  | ⟨[], size, h⟩ => ⟨[], size, h⟩
  | ⟨x :: xs, size, h⟩ => ⟨xs, size - x.utf8Size, by simp [h]⟩

@[simp] theorem chars_ofList (cs : List Char) : (ofList cs).chars = cs := rfl

@[simp] theorem size_ofList (cs : List Char) : (ofList cs).size = Utf8.size cs := rfl

@[simp] theorem ofList_chars (u : Unread) : ofList u.chars = u := by
  obtain ⟨chars, size, rfl⟩ := u
  rfl

@[simp] theorem tail_ofList_cons (x : Char) (xs : List Char) :
    (ofList (x :: xs)).tail = ofList xs := by
  simp [ofList, tail]

end Unread

/-- A token begins at byte `start`, with `remaining` bytes of the text from there on. The characters
of `held` have been read since, the last one first. -/
structure Cursor where
  start : Nat
  remaining : Nat
  held : List Char
  unread : Unread

namespace Cursor

def fresh (start : Nat) (cs : List Char) : Cursor := ⟨start, Utf8.size cs, [], .ofList cs⟩

def ofText (cs : List Char) : Cursor := fresh 0 cs

def rest (c : Cursor) : List Char := c.unread.chars

def text (c : Cursor) : List Char := c.held.reverse

/-- The next character, or NUL where there is none. -/
def first (c : Cursor) : Char := c.rest.headD '\x00'

def atEnd (c : Cursor) : Bool := c.rest.isEmpty

def bump (c : Cursor) : Option Char × Cursor :=
  match c.rest with
  | [] => (none, c)
  | x :: _ => (some x, { c with held := x :: c.held, unread := c.unread.tail })

theorem unread_eq (c : Cursor) {cs : List Char} (h : c.rest = cs) : c.unread = .ofList cs := by
  rw [← h, rest, Unread.ofList_chars]

theorem bump_nil (c : Cursor) (h : c.rest = []) : c.bump = (none, c) := by
  simp only [bump, h]

theorem bump_cons (c : Cursor) {x : Char} {xs : List Char} (h : c.rest = x :: xs) :
    c.bump = (some x, { c with held := x :: c.held, unread := .ofList xs }) := by
  simp only [bump, h, c.unread_eq h, Unread.tail_ofList_cons]

theorem length_rest_bump_lt (c : Cursor) (h : c.atEnd = false) :
    c.bump.2.rest.length < c.rest.length := by
  cases hrest : c.rest with
  | nil => simp [atEnd, hrest] at h
  | cons x xs => simp [bump_cons c hrest, rest]

/-- Reads up to the first character that fails the test, which may depend on what it has let pass,
given with the last character first. Each character is peeked at before it is read. The NUL that is
peeked at the end is not read, whatever the test makes of it. -/
def readWhile (p : List Char → Char → Bool) (passed : List Char) (c : Cursor) : Cursor :=
  if h : (p passed c.first && !c.atEnd) = true then
    have := length_rest_bump_lt c (by simpa using (Bool.and_eq_true_iff.mp h).2)
    readWhile p (c.first :: passed) c.bump.2
  else c
termination_by c.rest.length

def takeWhile (p : Char → Bool) (c : Cursor) : Cursor := c.readWhile (fun _ => p) []

def position (c : Cursor) : Nat := c.remaining - c.unread.size

def reset (c : Cursor) : Cursor := ⟨c.start + c.position, c.unread.size, [], c.unread⟩

@[simp] theorem fresh_rest (start : Nat) (cs : List Char) : (fresh start cs).rest = cs := rfl

@[simp] theorem ofText_rest (cs : List Char) : (ofText cs).rest = cs := rfl

@[simp] theorem reset_rest (c : Cursor) : c.reset.rest = c.rest := rfl

theorem reset_eq (c : Cursor) : c.reset = fresh (c.start + c.position) c.rest := by
  rw [reset, fresh, rest, Unread.ofList_chars, c.unread.size_eq]

section Reading

variable (p : List Char → Char → Bool) (passed : List Char) (start remaining : Nat)
  (held : List Char)

theorem readWhile_nil :
    (⟨start, remaining, held, .ofList []⟩ : Cursor).readWhile p passed =
      ⟨start, remaining, held, .ofList []⟩ := by
  rw [readWhile, dif_neg (by simp [atEnd, rest])]

theorem readWhile_cons (x : Char) (xs : List Char) :
    (⟨start, remaining, held, .ofList (x :: xs)⟩ : Cursor).readWhile p passed =
      if p passed x then
        (⟨start, remaining, x :: held, .ofList xs⟩ : Cursor).readWhile p (x :: passed)
      else ⟨start, remaining, held, .ofList (x :: xs)⟩ := by
  rw [readWhile]
  cases hx : p passed x <;> simp [first, atEnd, bump, rest, hx]

end Reading

theorem takeWhile_eq (p : Char → Bool) (c : Cursor) :
    c.takeWhile p =
      { c with
        held := (c.rest.takeWhile p).reverse ++ c.held
        unread := .ofList (c.rest.dropWhile p) } := by
  obtain ⟨start, remaining, held, unread⟩ := c
  rw [takeWhile, ← unread.ofList_chars]
  generalize ([] : List Char) = passed
  simp only [rest, Unread.chars_ofList]
  induction unread.chars generalizing held passed with
  | nil => simp [readWhile_nil]
  | cons x xs ih =>
    rw [readWhile_cons, ih]
    cases hx : p x <;> simp [hx]

end Cursor
end StackMachine
