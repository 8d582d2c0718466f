import StackMachine.Source.Cursor

/-!
# StackMachine.Source.Token

Tokens of the source text, and its words grouped by line.

* `Token`: a kind, the byte where it begins, and its text; `Token.span`.
* `Cursor.token`: the next token, as long as it can be.
* `Cursor.tokens`: all tokens up to and with the finishing one.
* `Token.lines`: the words of each line that has any.

Words are separated by spaces, tabs, carriage returns and commas. A semicolon begins a comment,
which reaches to the end of the line.
-/

namespace StackMachine

inductive TokenKind where
  | word
  | comment
  | blank
  | newline
  | finish
deriving DecidableEq

structure Token where
  kind : TokenKind
  start : Nat
  text : List Char
deriving DecidableEq

def isSeparator (c : Char) : Bool := c == ' ' || c == '\t' || c == '\r' || c == ','

def isWordChar (c : Char) : Bool := !isSeparator c && c != '\n' && c != ';'

namespace TokenKind

def ofFirst (c : Char) : TokenKind :=
  if c == ';' then comment
  else if c == '\n' then newline
  else if isSeparator c then blank
  else word

theorem ofFirst_ne_finish (c : Char) : ofFirst c ≠ finish := by
  unfold ofFirst
  split
  · simp
  · split
    · simp
    · split <;> simp

def continues : TokenKind → Char → Bool
  | word, c => isWordChar c
  | comment, c => c != '\n'
  | blank, c => isSeparator c
  | newline, _ => false
  | finish, _ => false

end TokenKind

def Token.span (t : Token) : Span := ⟨t.start, Utf8.size t.text⟩

namespace Cursor

/-- The next token. It holds everything read since the last reset. At the end of the text it is the
finishing token, which is empty and changes nothing. -/
def token (c : Cursor) : Token × Cursor :=
  match c.bump with
  | (none, c) => (⟨.finish, c.start, []⟩, c)
  | (some x, c) =>
    let kind := TokenKind.ofFirst x
    let c := c.takeWhile kind.continues
    (⟨kind, c.start, c.text⟩, c.reset)

theorem token_nil (c : Cursor) (h : c.rest = []) : c.token = (⟨.finish, c.start, []⟩, c) := by
  simp [token, bump_nil c h]

theorem token_cons (c : Cursor) {x : Char} {xs : List Char} (h : c.rest = x :: xs) :
    c.token =
      let kind := TokenKind.ofFirst x
      let rest := xs.dropWhile kind.continues
      (⟨kind, c.start, c.text ++ x :: xs.takeWhile kind.continues⟩,
        fresh (c.start + (c.remaining - Utf8.size rest)) rest) := by
  simp [token, bump_cons c h, takeWhile_eq, reset_eq, position, text, Cursor.rest]

theorem length_rest_token_lt (c : Cursor) (h : c.rest ≠ []) :
    c.token.2.rest.length < c.rest.length := by
  obtain ⟨x, xs, hx⟩ := List.exists_cons_of_ne_nil h
  rw [token_cons c hx, hx]
  exact Nat.lt_succ_of_le (List.dropWhile_sublist _).length_le

def tokens (c : Cursor) : List Token :=
  if h : c.rest = [] then [c.token.1]
  else
    have := length_rest_token_lt c h
    c.token.1 :: tokens c.token.2
termination_by c.rest.length

theorem tokens_last (c : Cursor) (h : c.rest = []) : c.tokens = [c.token.1] := by
  rw [tokens, dif_pos h]

theorem tokens_next (c : Cursor) (h : c.rest ≠ []) : c.tokens = c.token.1 :: c.token.2.tokens := by
  rw [tokens, dif_neg h]

end Cursor

namespace Token

/-- The words before each end of line, an empty list where a line has none. -/
def groups : List Token → List (List Token)
  | [] => [[]]
  | t :: ts =>
    match t.kind, groups ts with
    | .newline, gs => [] :: gs
    | .word, g :: gs => (t :: g) :: gs
    | _, gs => gs

/-- The words of a text by line. Comments, separators and lines without words are dropped. -/
def lines (cs : List Char) : List (List Token) :=
  (groups (Cursor.ofText cs).tokens).filter fun line => !line.isEmpty

end Token
end StackMachine
