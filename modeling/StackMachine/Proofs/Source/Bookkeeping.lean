import StackMachine.Proofs.Source.Splitting

/-!
# StackMachine.Proofs.Source.Bookkeeping

What a cursor knows of its place in a text, whatever was done with it before.

* `Cursor.Op`, `Cursor.after`: operations on a cursor, in any order.
* `Cursor.Placed`: a text in three parts, before the token, read of it and unread, with the two
  numbers that follow from them. Every operation keeps this (`Placed.apply`, `placed_after`).
* `Cursor.Passes`, `Cursor.exists_readWhile`: where reading while a test holds comes to its end.
* `Cursor.behindToken`: a cursor at the end of its next token, which has not been reset yet.
* `Cursor.Reliable`, `cursor_reliable`: all that can be relied on after any operations.
-/

namespace StackMachine
namespace Cursor

def place (c : Cursor) : Nat := c.start + c.position

inductive Op where
  | bump
  | readWhile (p : List Char → Char → Bool)
  | reset
  | token

def Op.apply : Op → Cursor → Cursor
  | bump, c => c.bump.2
  | readWhile p, c => c.readWhile p []
  | reset, c => c.reset
  | token, c => c.token.2

def after (source : String) (ops : List Op) : Cursor :=
  ops.foldl (fun c op => op.apply c) (ofText source.toList)

/-- Characters that a test lets pass one after the other, and the text behind them, at whose first
character it stops. -/
structure Passes (p : List Char → Char → Bool) (passed read rest : List Char) : Prop where
  all : ∀ before x after, read = before ++ x :: after → p (before.reverse ++ passed) x = true
  stop : ∀ x ∈ rest.head?, p (read.reverse ++ passed) x = false

/-- What is read passes the test; nothing is asked about what is peeked at behind the end. -/
theorem exists_readWhile (p : List Char → Char → Bool) (passed : List Char) (c : Cursor) :
    ∃ read rest, c.rest = read ++ rest ∧
      c.readWhile p passed = { c with held := read.reverse ++ c.held, unread := .ofList rest } ∧
      Passes p passed read rest := by
  obtain ⟨start, remaining, held, unread⟩ := c
  rw [← unread.ofList_chars]
  simp only [rest, Unread.chars_ofList]
  induction unread.chars generalizing held passed with
  | nil => exact ⟨[], [], rfl, by simp [readWhile_nil], ⟨by simp, by simp⟩⟩
  | cons x xs ih =>
    rw [readWhile_cons]
    by_cases hx : p passed x = true
    · obtain ⟨read, rest, hxs, hc, hall, hstop⟩ := ih (x :: passed) (x :: held)
      refine ⟨x :: read, rest, congrArg (x :: ·) hxs, ?_, ⟨?_, ?_⟩⟩
      · rw [if_pos hx, hc]
        simp
      · intro before y after heq
        cases before with
        | nil =>
          obtain ⟨rfl, -⟩ := List.cons.inj heq
          exact hx
        | cons b before =>
          obtain ⟨rfl, hread⟩ := List.cons.inj heq
          simpa using hall before y after hread
      · intro y hy
        simpa using hstop y hy
    · refine ⟨[], x :: xs, rfl, by rw [if_neg hx]; rfl, ⟨by simp, ?_⟩⟩
      intro y hy
      obtain rfl := Option.some.inj hy
      simpa using hx

/-- A text in three parts: what is before the token, what was read of it, and what is unread. The
numbers of a cursor are the sizes of the first part and of the other two. -/
inductive Placed : List Char → Cursor → Prop where
  | mk (before text rest : List Char) :
    Placed (before ++ (text ++ rest))
      ⟨Utf8.size before, Utf8.size (text ++ rest), text.reverse, .ofList rest⟩

namespace Placed

variable {cs : List Char} {c : Cursor}

theorem fresh (before rest : List Char) :
    Placed (before ++ rest) (Cursor.fresh (Utf8.size before) rest) := mk before [] rest

theorem ofText (cs : List Char) : Placed cs (Cursor.ofText cs) := fresh [] cs

theorem remaining (h : Placed cs c) : c.remaining = Utf8.size c.text + Utf8.size c.rest := by
  cases h with
  | mk before text rest =>
    rw [Cursor.text, List.reverse_reverse]
    exact Utf8.size_append text rest

theorem position (h : Placed cs c) : c.position = Utf8.size c.text := by
  rw [Cursor.position, h.remaining, c.unread.size_eq]
  exact Nat.add_sub_cancel _ _

theorem read (more rest : List Char) (hrest : c.rest = more ++ rest) (h : Placed cs c) :
    Placed cs { c with held := more.reverse ++ c.held, unread := .ofList rest } := by
  cases h with
  | mk before text unread =>
    obtain rfl : unread = more ++ rest := hrest
    simpa using mk before (text ++ more) rest

theorem bump (h : Placed cs c) : Placed cs c.bump.2 := by
  cases hrest : c.rest with
  | nil => rwa [bump_nil c hrest]
  | cons x xs =>
    rw [bump_cons c hrest]
    exact h.read [x] xs hrest

theorem readWhile (h : Placed cs c) (p : List Char → Char → Bool) (passed : List Char) :
    Placed cs (c.readWhile p passed) := by
  obtain ⟨read, rest, hrest, hc, -⟩ := exists_readWhile p passed c
  rw [hc]
  exact h.read read rest hrest

theorem exists_before (h : Placed cs c) :
    ∃ before, cs = before ++ c.rest ∧ c.place = Utf8.size before := by
  have hposition := h.position
  cases h with
  | mk before text rest =>
    refine ⟨before ++ text, (List.append_assoc before text rest).symm, ?_⟩
    rw [place, hposition, Cursor.text, List.reverse_reverse]
    exact (Utf8.size_append before text).symm

theorem reset (h : Placed cs c) : Placed cs c.reset := by
  obtain ⟨before, hcs, hplace⟩ := h.exists_before
  rw [reset_eq, hcs, show c.start + c.position = Utf8.size before from hplace]
  exact fresh before c.rest

theorem counted (h : Placed cs c) : c.unread.size ≤ c.remaining := by
  rw [h.remaining, c.unread.size_eq]
  exact Nat.le_add_left _ _

theorem covers (h : Placed cs c) : (⟨c.start, Utf8.size c.text⟩ : Span).Covers cs c.text := by
  cases h with
  | mk before text rest => exact ⟨before, rest, by simp [Cursor.text], rfl, rfl⟩

theorem between {source : String} (h : Placed source.toList c) :
    (⟨c.place⟩ : String.Pos.Raw).IsValid source := by
  have hfinish := h.covers.finish.within.first
  rwa [Span.finish, ← h.position] at hfinish

theorem behind (h : Placed cs c) : Utf8.behind? cs c.place = some c.rest := by
  obtain ⟨before, hcs, hplace⟩ := h.exists_before
  rw [hcs, hplace]
  exact Utf8.behind?_append before c.rest

end Placed

/-- At the end of the next token, which still counts as read. -/
def behindToken (c : Cursor) : Cursor :=
  c.bump.2.takeWhile (TokenKind.ofFirst c.first).continues

theorem token_eq (c : Cursor) (h : c.rest ≠ []) :
    c.token = (⟨TokenKind.ofFirst c.first, c.behindToken.start, c.behindToken.text⟩,
      c.behindToken.reset) := by
  obtain ⟨x, xs, hx⟩ := List.exists_cons_of_ne_nil h
  simp [token, behindToken, bump_cons c hx, first, hx]

theorem bump_eq (c : Cursor) : c.bump.1 = c.rest.head? ∧ c.bump.2.rest = c.rest.tail := by
  cases h : c.rest with
  | nil =>
    rw [bump_nil c h]
    exact ⟨rfl, h⟩
  | cons x xs =>
    rw [bump_cons c h]
    exact ⟨rfl, rfl⟩

theorem start_bump (c : Cursor) : c.bump.2.start = c.start := by
  cases h : c.rest with
  | nil => rw [bump_nil c h]
  | cons x xs => rw [bump_cons c h]

theorem start_readWhile (p : List Char → Char → Bool) (passed : List Char) (c : Cursor) :
    (c.readWhile p passed).start = c.start := by
  obtain ⟨read, rest, -, hc, -⟩ := exists_readWhile p passed c
  rw [hc]

theorem start_behindToken (c : Cursor) : c.behindToken.start = c.start := by
  rw [behindToken, takeWhile, start_readWhile, start_bump]

theorem Placed.behindToken {cs : List Char} {c : Cursor} (h : Placed cs c) :
    Placed cs c.behindToken := h.bump.readWhile _ _

theorem Placed.apply {cs : List Char} {c : Cursor} (op : Op) (h : Placed cs c) :
    Placed cs (op.apply c) := by
  cases op with
  | bump => exact h.bump
  | readWhile p => exact h.readWhile p []
  | reset => exact h.reset
  | token =>
    rw [Op.apply]
    by_cases hrest : c.rest = []
    · rwa [token_nil c hrest]
    · rw [token_eq c hrest]
      exact h.behindToken.reset

theorem Placed.applyAll {cs : List Char} {c : Cursor} (ops : List Op) (h : Placed cs c) :
    Placed cs (ops.foldl (fun c op => op.apply c) c) := by
  induction ops generalizing c with
  | nil => exact h
  | cons op ops ih => exact ih (h.apply op)

theorem placed_after (source : String) (ops : List Op) :
    Placed source.toList (after source ops) :=
  (Placed.ofText source.toList).applyAll ops

theorem size_text_lt_behindToken (c : Cursor) (h : c.rest ≠ []) :
    Utf8.size c.text < Utf8.size c.behindToken.text := by
  obtain ⟨x, xs, hx⟩ := List.exists_cons_of_ne_nil h
  have hpos := x.utf8Size_pos
  simp only [behindToken, takeWhile_eq, bump_cons c hx, text, List.reverse_append,
    List.reverse_reverse, List.reverse_cons, Utf8.size_append, Utf8.size_cons, Utf8.size_nil]
  omega

theorem start_apply_le (op : Op) (c : Cursor) : c.start ≤ (op.apply c).start := by
  cases op with
  | bump => exact Nat.le_of_eq (start_bump c).symm
  | readWhile p => exact Nat.le_of_eq (start_readWhile p [] c).symm
  | reset => exact Nat.le_add_right _ _
  | token =>
    rw [Op.apply]
    by_cases hrest : c.rest = []
    · exact Nat.le_of_eq (by rw [token_nil c hrest])
    · rw [token_eq c hrest, ← start_behindToken c]
      exact Nat.le_add_right _ _

theorem kind_token_eq_finish_iff (c : Cursor) : c.token.1.kind = .finish ↔ c.rest = [] := by
  constructor
  · intro hkind
    apply Decidable.byContradiction
    intro hrest
    rw [token_eq c hrest] at hkind
    exact TokenKind.ofFirst_ne_finish c.first hkind
  · intro hrest
    rw [token_nil c hrest]

theorem place_reset (c : Cursor) : c.reset.place = c.place := by
  rw [place, position, reset, Nat.sub_self]
  rfl

theorem exists_passes (p : List Char → Char → Bool) (c : Cursor) :
    ∃ read, c.rest = read ++ (c.readWhile p []).rest ∧ Passes p [] read (c.readWhile p []).rest := by
  obtain ⟨read, rest, hrest, hc, hpasses⟩ := exists_readWhile p [] c
  rw [hc]
  exact ⟨read, hrest, hpasses⟩

/-- A token begins where the last reset was, and ends where the cursor is then. -/
theorem Placed.token {source : String} {c : Cursor} (h : Placed source.toList c)
    (hrest : c.rest ≠ []) :
    c.token.1.span.offset = c.start ∧ c.token.1.span.finish = c.token.2.place ∧
      c.place < c.token.2.place ∧ c.token.2.start = c.token.2.place ∧
      c.token.1.span.slice? source.toList = some c.token.1.text := by
  have hposition := h.position
  have hbehind := h.behindToken.position
  have hstart := c.start_behindToken
  have hmore := c.size_text_lt_behindToken hrest
  rw [token_eq c hrest]
  refine ⟨hstart, ?_, ?_, (place_reset _).symm, h.behindToken.covers.slice?⟩
  · rw [place_reset, place, hbehind]
    rfl
  · rw [place_reset, place, place]
    omega

/-- What can be relied on wherever a cursor has come to. -/
structure Reliable (source : String) (c : Cursor) : Prop where
  /-- The position takes away no more bytes than there are. -/
  counted : c.unread.size ≤ c.remaining
  /-- The place is between two characters. -/
  between : (⟨c.start + c.position⟩ : String.Pos.Raw).IsValid source
  /-- The unread text is all that stands behind the place. -/
  unread : Utf8.behind? source.toList (c.start + c.position) = some c.rest
  forward : ∀ op : Op, c.start ≤ (op.apply c).start
  /-- A token begins where the last reset was. -/
  started : c.bump.2.start = c.start ∧ (∀ p, (c.readWhile p []).start = c.start) ∧
    c.reset.start = c.place ∧ c.reset.place = c.place
  bumped : c.bump.1 = c.rest.head? ∧ c.bump.2.rest = c.rest.tail
  /-- Reading stops at the first character that fails the test, or at the end. -/
  stopped : ∀ p, ∃ read, c.rest = read ++ (c.readWhile p []).rest ∧
    Passes p [] read (c.readWhile p []).rest
  taken : ∀ p, (c.takeWhile p).rest = c.rest.dropWhile p
  ended : c.token.1.kind = .finish ↔ c.rest = []
  /-- The finishing token is empty and changes nothing. -/
  finish : c.token.1.kind = .finish → c.token.1.span = ⟨c.start, 0⟩ ∧ c.token.2 = c
  /-- Any other token holds all that was read since the last reset, and more. It is reset behind. -/
  token : c.token.1.kind ≠ .finish →
    c.token.1.span.offset = c.start ∧ c.token.1.span.finish = c.token.2.place ∧
      c.place < c.token.2.place ∧ c.token.2.start = c.token.2.place ∧
      c.token.1.span.slice? source.toList = some c.token.1.text

end Cursor

/-- A cursor can be relied on after any operations, in any order. -/
theorem cursor_reliable (source : String) (ops : List Cursor.Op) :
    Cursor.Reliable source (Cursor.after source ops) := by
  have hplaced := Cursor.placed_after source ops
  generalize Cursor.after source ops = c at hplaced
  have hlast := Cursor.kind_token_eq_finish_iff c
  exact {
    counted := hplaced.counted
    between := hplaced.between
    unread := hplaced.behind
    forward := fun op => Cursor.start_apply_le op c
    started := ⟨c.start_bump, fun p => Cursor.start_readWhile p [] c, rfl, c.place_reset⟩
    bumped := c.bump_eq
    stopped := fun p => Cursor.exists_passes p c
    taken := fun p => by rw [Cursor.takeWhile_eq]; rfl
    ended := hlast
    finish := fun h => by rw [Cursor.token_nil c (hlast.mp h)]; exact ⟨rfl, rfl⟩
    token := fun h => hplaced.token fun hrest => h (hlast.mpr hrest) }

/-- A NUL in the text is read, the one that is peeked at behind its end is not. -/
example : (Cursor.after "\u00e9\x00" [.bump, .readWhile fun _ _ => true]).position = 3 := by
  decide +kernel

end StackMachine
