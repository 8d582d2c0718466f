/-!
# StackMachine.Text.Utf8

UTF-8, read one byte at a time.

* `Utf8.Pending`: a character some of whose bytes are still owed.
* `Utf8.feed`: what one more byte completes.
* `Utf8.decode`: the characters of a byte sequence, `none` for each malformed stretch.
* `Utf8.lossy`: the same with U+FFFD in place of `none`; `Utf8.strict?`: refuses any `none`.
* `Utf8.encode`, `Utf8.size`: the bytes of a text and their number.

A malformed stretch is the longest beginning of a well-formed character, or one byte that begins
none. The byte after it is read afresh.
-/

namespace StackMachine
namespace Utf8

/-- A character begun: `owed` more bytes are due, the next one between `low` and `high`; `code` is
the part of its number read so far. No byte that is a character by itself can be due. -/
structure Pending where
  owed : Nat
  low : UInt8
  high : UInt8
  code : Nat
  low_ge : 0x80 ≤ low.toNat

def Pending.owing (owed : Nat) (low high : UInt8) (code : Nat)
    (h : 0x80 ≤ low.toNat := by decide) : Pending := ⟨owed, low, high, code, h⟩

/-- What a byte at the start of a character does: it is one, it begins one, or neither. -/
def start (b : UInt8) : List (Option Char) × Option Pending :=
  let n := b.toNat
  if n < 0x80 then ([some (Char.ofNat n)], none)
  else if 0xc2 ≤ n && n ≤ 0xdf then ([], some (.owing 1 0x80 0xbf (n - 0xc0)))
  else if n == 0xe0 then ([], some (.owing 2 0xa0 0xbf 0))
  else if n == 0xed then ([], some (.owing 2 0x80 0x9f 0xd))
  else if 0xe1 ≤ n && n ≤ 0xef then ([], some (.owing 2 0x80 0xbf (n - 0xe0)))
  else if n == 0xf0 then ([], some (.owing 3 0x90 0xbf 0))
  else if 0xf1 ≤ n && n ≤ 0xf3 then ([], some (.owing 3 0x80 0xbf (n - 0xf0)))
  else if n == 0xf4 then ([], some (.owing 3 0x80 0x8f 4))
  else ([none], none)

/-- What one more byte completes, and what is then pending. -/
def feed : Option Pending → UInt8 → List (Option Char) × Option Pending
  | none, b => start b
  | some p, b =>
    if p.low ≤ b && b ≤ p.high then
      let code := 64 * p.code + (b.toNat - 0x80)
      if p.owed ≤ 1 then ([some (Char.ofNat code)], none)
      else ([], some (.owing (p.owed - 1) 0x80 0xbf code))
    else (none :: (start b).1, (start b).2)

/-- Decodes from a state on. A character cut off by the end is a malformed stretch. -/
def decodeFrom : Option Pending → List UInt8 → List (Option Char)
  | none, [] => []
  | some _, [] => [none]
  | p, b :: bs => (feed p b).1 ++ decodeFrom (feed p b).2 bs

def decode (bs : List UInt8) : List (Option Char) := decodeFrom none bs

/-- Decodes, with U+FFFD for every malformed stretch. -/
def lossy (bs : List UInt8) : List Char := (decode bs).map (·.getD '\uFFFD')

def strict? (bs : List UInt8) : Option (List Char) := (decode bs).mapM id

def size : List Char → Nat
  | [] => 0
  | c :: cs => c.utf8Size + size cs

def encode (s : String) : List UInt8 := s.toUTF8.toList

@[simp] theorem size_nil : size [] = 0 := rfl

@[simp] theorem size_cons (c : Char) (cs : List Char) : size (c :: cs) = c.utf8Size + size cs := rfl

@[simp] theorem size_append (as bs : List Char) : size (as ++ bs) = size as + size bs := by
  induction as with
  | nil => simp
  | cons a as ih => simp [ih, Nat.add_assoc]

theorem size_eq_zero_iff {cs : List Char} : size cs = 0 ↔ cs = [] := by
  cases cs with
  | nil => simp
  | cons c cs =>
    have hpos := c.utf8Size_pos
    simp only [size_cons, List.cons_ne_nil, iff_false]
    omega

/-- After a byte below `0x80` nothing is pending, whatever was before. -/
theorem feed_ascii (p : Option Pending) {b : UInt8} (h : b.toNat < 0x80) :
    (feed p b).2 = none := by
  cases p with
  | none => simp [feed, start, h]
  | some q =>
    have hq := q.low_ge
    have hb : ¬ q.low ≤ b := by
      rw [UInt8.le_iff_toNat_le]
      omega
    simp [feed, start, h, hb]

end Utf8
end StackMachine
