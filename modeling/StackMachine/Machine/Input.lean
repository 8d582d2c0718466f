import StackMachine.Decimal.Literal
import StackMachine.Machine.Fault
import StackMachine.Text.Blank
import StackMachine.Text.Utf8

/-!
# StackMachine.Machine.Input

The input channel, read word by word.

* `Input`: the words left of the current line, and the bytes not yet read.
* `Reading`: what one read yields.
* `Input.next`: reads a word; a line is read only when no word is left.
* `Input.settled`: whether more bytes could change what the next read yields.

A line is decoded by itself, with U+FFFD for malformed bytes, and cut into words at white space.
-/

namespace StackMachine

/-- `failure` is what every read meets after the last byte, in place of the end of the input. -/
structure Input where
  words : List (List Char)
  bytes : List UInt8
  failure : Option IoError

inductive Reading where
  | number (w : Word)
  | notNumber (word : List Char)
  | exhausted
  | failed (e : IoError)

def Reading.ofWord (cs : List Char) : Reading :=
  match Decimal.literal? cs with
  | some w => .number w
  | none => .notNumber cs

namespace Input

def ofBytes (bytes : List UInt8) (failure : Option IoError) : Input := ⟨[], bytes, failure⟩

def wordsOf (line : List UInt8) : List (List Char) := Text.words (Utf8.lossy line)

def isNewline (b : UInt8) : Bool := b == 10

/-- Reads what follows the last newline. A failure loses it. -/
def nextOfLast (i : Input) : Reading × Input :=
  match i.failure, wordsOf i.bytes with
  | some e, _ => (.failed e, ⟨[], [], some e⟩)
  | none, [] => (.exhausted, ⟨[], [], none⟩)
  | none, w :: ws => (.ofWord w, ⟨ws, [], none⟩)

/-- Reads the first word of the lines that are complete, and of the rest if they have none. -/
def nextOfLines (i : Input) : Reading × Input :=
  match h : i.bytes.dropWhile fun b => !isNewline b with
  | [] => i.nextOfLast
  | _ :: rest =>
    match wordsOf (i.bytes.takeWhile fun b => !isNewline b) with
    | [] =>
      have : rest.length < i.bytes.length := by
        have hl : (i.bytes.dropWhile fun b => !isNewline b).length ≤ i.bytes.length :=
          (List.dropWhile_sublist _).length_le
        rw [h] at hl
        exact hl
      nextOfLines ⟨[], rest, i.failure⟩
    | w :: ws => (.ofWord w, ⟨ws, rest, i.failure⟩)
termination_by i.bytes.length

def complete (bytes : List UInt8) : List UInt8 :=
  (bytes.reverse.dropWhile fun b => !isNewline b).reverse

/-- Whether the next word is known whatever bytes may still arrive. -/
def settled (i : Input) : Bool := !i.words.isEmpty || !(wordsOf (complete i.bytes)).isEmpty

def next (i : Input) : Reading × Input :=
  match i.words with
  | w :: ws => (.ofWord w, { i with words := ws })
  | [] => i.nextOfLines

end Input
end StackMachine
