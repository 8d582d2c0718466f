import StackMachine.Machine.Input
import StackMachine.Proofs.Text.Decoding
import StackMachine.Proofs.Text.Words

/-!
# StackMachine.Proofs.Machine.Unread

What is still to be read from an input.

* `Input.wordsOf_newline`: bytes can be cut behind any newline without a change to their words.
* `Input.unread`: the words left of the line that was begun, and those of all bytes behind it.
* `Input.Gives`, `Input.gives_next`: one read takes the first of them away and yields it.
* `Input.pass`, `Input.passes`: reading as a loop that takes a line per turn.
* `Input.passes_eq`: the loop ends, and yields what `next` yields.
-/

namespace StackMachine
namespace Input

section Lines

variable {bs line rest : List UInt8}

/-- Bytes without a newline. -/
def Partial (bs : List UInt8) : Prop := ∀ b ∈ bs, isNewline b = false

theorem partial_or_line (bs : List UInt8) :
    Partial bs ∨ ∃ line rest, Partial line ∧ bs = line ++ 10 :: rest := by
  induction bs with
  | nil => exact .inl (by simp [Partial])
  | cons b bs ih =>
    by_cases hb : isNewline b = true
    · have hten : b = 10 := by simpa [isNewline] using hb
      exact .inr ⟨[], bs, by simp [Partial], by rw [hten]; rfl⟩
    · have hother : isNewline b = false := by simpa using hb
      rcases ih with hbs | ⟨line, rest, hline, rfl⟩
      · exact .inl (by simpa [Partial, hother] using hbs)
      · exact .inr ⟨b :: line, rest, by simpa [Partial, hother] using hline, rfl⟩

theorem dropWhile_partial (h : Partial bs) : (bs.dropWhile fun b => !isNewline b) = [] := by
  rw [← List.append_nil bs, List.dropWhile_append_of_pos (by intro b hb; simp [h b hb])]
  rfl

theorem dropWhile_line (h : Partial line) :
    ((line ++ 10 :: rest).dropWhile fun b => !isNewline b) = 10 :: rest := by
  rw [List.dropWhile_append_of_pos (by intro b hb; simp [h b hb])]
  rfl

theorem takeWhile_line (h : Partial line) :
    ((line ++ 10 :: rest).takeWhile fun b => !isNewline b) = line := by
  rw [List.takeWhile_append_of_pos (by intro b hb; simp [h b hb])]
  simp [isNewline]

theorem complete_partial (h : Partial bs) : complete bs = [] := by
  have hback : Partial bs.reverse := by
    intro b hb
    exact h b (List.mem_reverse.mp hb)
  rw [complete, dropWhile_partial hback, List.reverse_nil]

theorem complete_line (line rest : List UInt8) :
    complete (line ++ 10 :: rest) = line ++ 10 :: complete rest := by
  have hten : (!isNewline 10) = false := rfl
  rw [complete, complete, List.reverse_append, List.reverse_cons, List.append_assoc,
    List.dropWhile_append]
  split
  · rename_i hall
    rw [List.isEmpty_iff.mp hall]
    simp [hten]
  · simp

theorem wordsOf_nil : wordsOf [] = [] := rfl

theorem wordsOf_newline (line rest : List UInt8) :
    wordsOf (line ++ 10 :: rest) = wordsOf line ++ wordsOf rest := by
  rw [wordsOf, Utf8.lossy_ascii line rest (by decide), Text.words_blank (by decide)]
  rfl

end Lines

variable {i : Input}

/-- The bytes that are not lost. A read that fails loses the line that it began. -/
def readable (i : Input) : List UInt8 :=
  match i.failure with
  | none => i.bytes
  | some _ => complete i.bytes

def unread (i : Input) : List (List Char) := i.words ++ wordsOf i.readable

/-- What a read yields when there is no word left. -/
def ending (i : Input) : Reading :=
  match i.failure with
  | none => .exhausted
  | some e => .failed e

section Lines

variable {words : List (List Char)} {line rest : List UInt8} {failure : Option IoError}

theorem unread_line : unread ⟨words, line ++ 10 :: rest, failure⟩ =
    words ++ (wordsOf line ++ unread ⟨[], rest, failure⟩) := by
  cases failure with
  | none => simp only [unread, readable, wordsOf_newline, List.nil_append]
  | some e => simp only [unread, readable, complete_line, wordsOf_newline, List.nil_append]

theorem nextOfLines_partial (h : Partial i.bytes) : i.nextOfLines = i.nextOfLast := by
  rw [nextOfLines]
  split
  · rfl
  · rename_i b bs hbs
    rw [dropWhile_partial h] at hbs
    cases hbs

theorem nextOfLines_line (h : Partial line) :
    nextOfLines ⟨words, line ++ 10 :: rest, failure⟩ =
      match wordsOf line with
      | [] => nextOfLines ⟨[], rest, failure⟩
      | w :: ws => (.ofWord w, ⟨ws, rest, failure⟩) := by
  rw [nextOfLines]
  split
  · rename_i hnil
    rw [dropWhile_line h] at hnil
    cases hnil
  · rename_i b bs hbs
    rw [dropWhile_line h] at hbs
    cases hbs
    cases hw : wordsOf line <;> simp only [takeWhile_line h, hw]

end Lines

/-- A read yields the first word that is left, and leaves the others. -/
structure Gives (i : Input) (r : Reading) (j : Input) : Prop where
  reading : r = (i.unread.head?.map Reading.ofWord).getD i.ending
  unread : j.unread = i.unread.tail
  failure : j.failure = i.failure

theorem gives_word (w : List Char) (ws : List (List Char)) (bytes : List UInt8)
    (failure : Option IoError) :
    Gives ⟨w :: ws, bytes, failure⟩ (.ofWord w) ⟨ws, bytes, failure⟩ := ⟨rfl, rfl, rfl⟩

theorem gives_nextOfLast (hwords : i.words = []) (h : Partial i.bytes) :
    i.Gives i.nextOfLast.1 i.nextOfLast.2 := by
  obtain ⟨words, bytes, failure⟩ := i
  cases hwords
  cases failure with
  | none =>
    cases hw : wordsOf bytes with
    | nil => constructor <;> simp [nextOfLast, unread, readable, ending, hw, wordsOf_nil]
    | cons w ws => constructor <;> simp [nextOfLast, unread, readable, hw, wordsOf_nil]
  | some e =>
    have hlost : complete bytes = [] := complete_partial h
    have hnil : complete [] = [] := rfl
    constructor <;> simp [nextOfLast, unread, readable, ending, hlost, hnil, wordsOf_nil]

/-- Lines are passed over until one has a word. -/
theorem gives_nextOfLines (words : List (List Char)) (hwords : words = []) (bytes : List UInt8)
    (failure : Option IoError) :
    Gives ⟨words, bytes, failure⟩ (nextOfLines ⟨words, bytes, failure⟩).1
      (nextOfLines ⟨words, bytes, failure⟩).2 := by
  -- A line without words is passed over, which leaves fewer bytes.
  subst hwords
  induction hn : bytes.length using Nat.strongRecOn generalizing bytes with
  | ind n ih =>
    rcases partial_or_line bytes with hpart | ⟨line, rest, hline, rfl⟩
    · rw [nextOfLines_partial hpart]
      exact gives_nextOfLast rfl hpart
    · have hshort : rest.length < n := by
        rw [← hn, List.length_append, List.length_cons]
        omega
      rw [nextOfLines_line hline]
      cases hw : wordsOf line with
      | nil =>
        obtain ⟨hreading, hunread, hfailure⟩ := ih _ hshort rest rfl
        have hsame : unread ⟨[], line ++ 10 :: rest, failure⟩ = unread ⟨[], rest, failure⟩ := by
          rw [unread_line, hw]
          rfl
        exact ⟨by rw [hsame]; exact hreading, by rw [hsame]; exact hunread, hfailure⟩
      | cons w ws =>
        have hall : unread ⟨[], line ++ 10 :: rest, failure⟩ =
            w :: (ws ++ unread ⟨[], rest, failure⟩) := by
          rw [unread_line, hw]
          rfl
        exact ⟨by rw [hall]; rfl, by rw [hall]; rfl, rfl⟩

theorem gives_next (i : Input) : i.Gives i.next.1 i.next.2 := by
  obtain ⟨words, bytes, failure⟩ := i
  cases words with
  | nil => exact gives_nextOfLines [] rfl bytes failure
  | cons w ws => exact gives_word w ws bytes failure

theorem unread_ofBytes (bytes : List UInt8) : (ofBytes bytes none).unread = wordsOf bytes := rfl

section Loop

def readLine (i : Input) : Except IoError (List UInt8) × Input :=
  match i.bytes.dropWhile fun b => !isNewline b, i.failure with
  | b :: rest, _ =>
    (.ok ((i.bytes.takeWhile fun b => !isNewline b) ++ [b]), { i with bytes := rest })
  | [], none => (.ok i.bytes, { i with bytes := [] })
  | [], some e => (.error e, { i with bytes := [] })

/-- A turn of the loop. It yields a word if one is left, and else takes a line and looks again. -/
def pass (i : Input) : Option Reading × Input :=
  match i.words with
  | w :: ws => (some (.ofWord w), { i with words := ws })
  | [] =>
    match i.readLine with
    | (.error e, j) => (some (.failed e), j)
    | (.ok [], j) => (some .exhausted, j)
    | (.ok line, j) => (none, { j with words := wordsOf line })

/-- At most so many turns, until one of them yields something. -/
def passes : Nat → Input → Option (Reading × Input)
  | 0, _ => none
  | limit + 1, i =>
    match i.pass with
    | (some r, j) => some (r, j)
    | (none, j) => passes limit j

/-- A turn either ends the loop or uses up bytes. What is yielded in the end does not change. -/
theorem pass_cases (i : Input) :
    i.pass = (some i.next.1, i.next.2) ∨
      ∃ j, i.pass = (none, j) ∧ i.next = j.next ∧ j.bytes.length < i.bytes.length := by
  obtain ⟨words, bytes, failure⟩ := i
  cases words with
  | cons w ws => exact .inl rfl
  | nil =>
    simp only [pass, readLine, next]
    rcases partial_or_line bytes with hpart | ⟨line, rest, hline, rfl⟩
    · rw [nextOfLines_partial hpart, dropWhile_partial hpart]
      cases failure with
      | some e => exact .inl rfl
      | none =>
        cases bytes with
        | nil => exact .inl rfl
        | cons b bs =>
          refine .inr ⟨⟨wordsOf (b :: bs), [], none⟩, rfl, ?_, Nat.zero_lt_succ _⟩
          simp only [nextOfLast]
          cases wordsOf (b :: bs) with
          | cons w ws => rfl
          | nil =>
            simp only
            rw [nextOfLines_partial (by simp [Partial])]
            rfl
    · have hwords : wordsOf (line ++ [10]) = wordsOf line := by
        rw [wordsOf_newline, wordsOf_nil, List.append_nil]
      rw [nextOfLines_line hline, dropWhile_line hline, takeWhile_line hline]
      cases hl : line ++ [(10 : UInt8)] with
      | nil => simp at hl
      | cons b bs =>
        refine .inr ⟨⟨wordsOf (b :: bs), rest, failure⟩, by simp only [hl], ?_, ?_⟩
        · rw [← hl, hwords]
          cases wordsOf line <;> rfl
        · show rest.length < (line ++ 10 :: rest).length
          rw [List.length_append, List.length_cons]
          omega

theorem passes_eq {limit : Nat} (h : i.bytes.length < limit) : passes limit i = some i.next := by
  induction limit generalizing i with
  | zero => omega
  | succ limit ih =>
    rw [passes]
    rcases pass_cases i with hend | ⟨j, hnext, hsame, hless⟩
    · rw [hend]
    · rw [hnext, hsame]
      exact ih (by omega)

end Loop
end Input
end StackMachine
