/-!
# StackMachine.Text.Blank

White space and what it separates.

* `Text.isBlank`: the Unicode property White_Space, 25 characters.
* `Text.pieces`: a text cut at every separator.
* `Text.words`: the non-empty pieces between blanks.
* `Text.trim`: a text without the blanks at its ends.
-/

namespace StackMachine
namespace Text

def isBlank (c : Char) : Bool :=
  let n := c.toNat
  (0x9 ≤ n && n ≤ 0xd) || n == 0x20 || n == 0x85 || n == 0xa0 || n == 0x1680 ||
  (0x2000 ≤ n && n ≤ 0x200a) || n == 0x2028 || n == 0x2029 || n == 0x202f || n == 0x205f ||
  n == 0x3000

/-- The pieces between separators: one more than there are separators, some possibly empty. -/
def pieces (separates : Char → Bool) : List Char → List (List Char)
  | [] => [[]]
  | c :: cs =>
    if separates c then [] :: pieces separates cs
    else
      match pieces separates cs with
      | [] => [[c]]
      | p :: ps => (c :: p) :: ps

def words (cs : List Char) : List (List Char) := (pieces isBlank cs).filter fun w => !w.isEmpty

def trim (cs : List Char) : List Char :=
  ((cs.dropWhile isBlank).reverse.dropWhile isBlank).reverse

theorem pieces_ne_nil (p : Char → Bool) (cs : List Char) : pieces p cs ≠ [] := by
  cases cs with
  | nil => simp [pieces]
  | cons c cs =>
    simp only [pieces]
    split
    · simp
    · split <;> simp

theorem ne_nil_of_mem_words {w cs : List Char} (h : w ∈ words cs) : w ≠ [] := by
  simp only [words, List.mem_filter] at h
  intro hw
  simp [hw] at h

end Text
end StackMachine
