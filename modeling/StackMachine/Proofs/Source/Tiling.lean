import Mathlib.Data.List.Chain
import StackMachine.Proofs.Source.Bookkeeping

/-!
# StackMachine.Proofs.Source.Tiling

The tokens of a text lie one behind the other, without a gap, and each is as long as it can be.

* `TokenKind.Allows`: the texts that a token of each kind can have.
* `TokenKind.Precedes`: the kinds of tokens that can stand directly behind a token of each kind.
* `Cursor.Yields`: token after token, up to the first that finishes.
* `Token.flatten_tokens`, `Token.chain_tokens`, `Token.allows_of_mem_tokens`: the tokens of a text
  that begins at any byte.
* `Tiles`, `tokens_tile`: the tokens of a text are got one after the other, and they are the text.
-/

namespace StackMachine

namespace TokenKind

/-- The texts that a token of each kind can have. -/
def Allows : TokenKind → List Char → Prop
  | word, cs => cs ≠ [] ∧ ∀ c ∈ cs, Part.separates c = false ∧ c ≠ '\n' ∧ c ≠ ';'
  | comment, cs => cs.head? = some ';' ∧ '\n' ∉ cs
  | blank, cs => cs ≠ [] ∧ ∀ c ∈ cs, Part.separates c = true
  | newline, cs => cs = ['\n']
  | finish, cs => cs = []

/-- The kinds of tokens that can stand directly behind a token of each kind. -/
def Precedes : TokenKind → TokenKind → Prop
  | word, k => k ≠ word
  | comment, k => k = newline ∨ k = finish
  | blank, k => k ≠ blank
  | newline, _ => True
  | finish, _ => False

def ofText : List Char → TokenKind
  | [] => finish
  | c :: _ => ofFirst c

theorem begins_of_ofFirst {c : Char} {k : TokenKind} (h : ofFirst c = k) : Begins c k :=
  h ▸ begins_ofFirst c

/-- Where a token does not go on, another kind of token begins. -/
theorem precedes_ofText {k : TokenKind} (hk : k ≠ finish) {rest : List Char}
    (hstop : ∀ d ∈ rest.head?, k.continues d = false) : k.Precedes (ofText rest) := by
  cases rest with
  | nil =>
    cases k with
    | word =>
      intro h
      cases h
    | comment => exact .inr rfl
    | blank =>
      intro h
      cases h
    | newline => trivial
    | finish => exact hk rfl
  | cons d ds =>
    have hd := hstop d rfl
    cases k with
    | word =>
      intro hword
      cases begins_of_ofFirst hword with
      | word hc => exact Bool.false_ne_true (hd.symm.trans hc)
    | comment =>
      obtain rfl : d = '\n' := by simpa [continues] using hd
      exact .inl rfl
    | blank =>
      intro hblank
      cases begins_of_ofFirst hblank with
      | blank hc => exact Bool.false_ne_true (hd.symm.trans hc)
    | newline => trivial
    | finish => exact hk rfl

theorem allows_ofFirst (c : Char) (cs : List Char) :
    (ofFirst c).Allows (c :: cs.takeWhile (ofFirst c).continues) := by
  have hbegins := begins_ofFirst c
  have hrun : ∀ x ∈ cs.takeWhile (ofFirst c).continues, (ofFirst c).continues x = true :=
    List.all_eq_true.mp List.all_takeWhile
  generalize ofFirst c = k at *
  cases hbegins with
  | comment hc =>
    subst hc
    refine ⟨rfl, ?_⟩
    intro h
    rcases List.mem_cons.mp h with h | h
    · exact absurd h (by decide)
    · exact absurd (hrun '\n' h) (by decide)
  | newline hc => rw [hc, takeWhile_newline_kind, Allows]
  | blank hc =>
    refine ⟨List.cons_ne_nil _ _, ?_⟩
    intro x hx
    rw [Part.separates_iff]
    rcases List.mem_cons.mp hx with rfl | hx
    · exact hc
    · exact hrun x hx
  | word hc =>
    refine ⟨List.cons_ne_nil _ _, ?_⟩
    intro x hx
    have hword : isWordChar x = true := by
      rcases List.mem_cons.mp hx with rfl | hx
      · exact hc
      · exact hrun x hx
    simp only [isWordChar, Bool.and_eq_true, Bool.not_eq_true', bne_iff_ne] at hword
    refine ⟨?_, hword.1.2, hword.2⟩
    rw [← Bool.not_eq_true, Part.separates_iff, hword.1.1]
    exact Bool.false_ne_true

end TokenKind

/-- Token after token, up to the first that finishes. -/
inductive Cursor.Yields : Cursor → List Token → Prop where
  | last {c : Cursor} (h : c.token.1.kind = .finish) : Yields c [c.token.1]
  | next {c : Cursor} {ts : List Token} (h : c.token.1.kind ≠ .finish)
      (hts : Yields c.token.2 ts) : Yields c (c.token.1 :: ts)

theorem Cursor.yields_tokens (c : Cursor) : c.Yields c.tokens := by
  -- Each token but the last makes the unread text shorter.
  induction hlen : c.rest.length using Nat.strongRecOn generalizing c with
  | _ n ih =>
    by_cases hrest : c.rest = []
    · rw [tokens_last c hrest]
      exact .last ((kind_token_eq_finish_iff c).mpr hrest)
    · rw [tokens_next c hrest]
      refine .next (fun h => hrest ((kind_token_eq_finish_iff c).mp h)) (ih _ ?_ _ rfl)
      rw [← hlen]
      exact length_rest_token_lt c hrest

namespace Token

section Tokens

variable (a : Nat) (cs : List Char)

theorem exists_head_tokens : ∃ text ts,
    (Cursor.fresh a cs).tokens = ⟨TokenKind.ofText cs, a, text⟩ :: ts := by
  cases cs with
  | nil => exact ⟨[], [], Cursor.tokens_nil a⟩
  | cons c cs => exact ⟨_, _, Cursor.tokens_cons a c cs⟩

theorem flatten_tokens : ((Cursor.fresh a cs).tokens.map text).flatten = cs := by
  induction a, cs using Cursor.text_induction with
  | nil a => rw [Cursor.tokens_nil, List.map_singleton, List.flatten_singleton]
  | cons a c cs ih =>
    rw [Cursor.tokens_cons, List.map_cons, List.flatten_cons, ih]
    exact (text_append_behind c cs).symm

theorem getLast?_tokens :
    (Cursor.fresh a cs).tokens.getLast? = some ⟨.finish, a + Utf8.size cs, []⟩ := by
  induction a, cs using Cursor.text_induction with
  | nil a => rw [Cursor.tokens_nil, Utf8.size_nil, Nat.add_zero, List.getLast?_singleton]
  | cons a c cs ih =>
    rw [Cursor.tokens_cons, List.getLast?_cons, ih, Option.getD_some, Nat.add_assoc,
      ← Utf8.size_append, ← text_append_behind]

/-- Each token begins where the one before it ends, and is not of a kind that would have gone on. -/
theorem chain_tokens : (Cursor.fresh a cs).tokens.IsChain fun t u =>
    u.span.offset = t.span.finish ∧ t.kind.Precedes u.kind := by
  induction a, cs using Cursor.text_induction with
  | nil a =>
    rw [Cursor.tokens_nil]
    exact .singleton _
  | cons a c cs ih =>
    obtain ⟨text, ts, hbehind⟩ := exists_head_tokens
      (a + Utf8.size (c :: cs.takeWhile (TokenKind.ofFirst c).continues))
      (cs.dropWhile (TokenKind.ofFirst c).continues)
    rw [Cursor.tokens_cons]
    refine ih.cons ?_
    intro u hu
    rw [hbehind] at hu
    obtain rfl := Option.some.inj hu
    exact ⟨rfl, TokenKind.precedes_ofText (TokenKind.ofFirst_ne_finish c) (stop_of_dropWhile _ cs)⟩

theorem allows_of_mem_tokens : ∀ t ∈ (Cursor.fresh a cs).tokens, t.kind.Allows t.text := by
  induction a, cs using Cursor.text_induction with
  | nil a =>
    intro t ht
    rw [Cursor.tokens_nil, List.mem_singleton] at ht
    rw [ht]
    exact rfl
  | cons a c cs ih =>
    intro t ht
    rw [Cursor.tokens_cons] at ht
    rcases List.mem_cons.mp ht with rfl | ht
    · exact TokenKind.allows_ofFirst c cs
    · exact ih t ht

theorem offset_head_tokens : ∀ t ∈ (Cursor.ofText cs).tokens.head?, t.span.offset = 0 := by
  obtain ⟨text, ts, hhead⟩ := exists_head_tokens 0 cs
  intro t ht
  rw [Cursor.ofText, hhead] at ht
  obtain rfl := Option.some.inj ht
  rfl

end Tokens

theorem length_span_eq_zero_iff {t : Token} (h : t.kind.Allows t.text) :
    t.span.length = 0 ↔ t.kind = .finish := by
  obtain ⟨kind, start, text⟩ := t
  refine Utf8.size_eq_zero_iff.trans ?_
  cases kind with
  | word => simp [h.1]
  | comment =>
    have hne : text ≠ [] := by
      rintro rfl
      cases h.1
    simp [hne]
  | blank => simp [h.1]
  | newline => simp [show text = ['\n'] from h]
  | finish => simp [show text = [] from h]

end Token

/-- Tokens that are a whole text. -/
structure Tiles (source : String) (ts : List Token) : Prop where
  first : ∀ t ∈ ts.head?, t.span.offset = 0
  last : ts.getLast? = some ⟨.finish, source.utf8ByteSize, []⟩
  /-- Each token begins where the one before it ends. -/
  chain : ts.IsChain fun t u => u.span.offset = t.span.finish ∧ t.kind.Precedes u.kind
  whole : (ts.map Token.text).flatten = source.toList
  /-- No token cuts a character in two. -/
  within : ∀ t ∈ ts, t.span.Within source
  slice : ∀ t ∈ ts, t.span.slice? source.toList = some t.text
  allowed : ∀ t ∈ ts, t.kind.Allows t.text
  empty : ∀ t ∈ ts, t.span.length = 0 ↔ t.kind = .finish

/-- Reading token after token comes to an end, and the tokens are the whole text. -/
theorem tokens_tile (source : String) :
    (Cursor.ofText source.toList).Yields (Cursor.ofText source.toList).tokens ∧
      Tiles source (Cursor.ofText source.toList).tokens := by
  have hallowed := Token.allows_of_mem_tokens 0 source.toList
  have hcovers := Token.covers_of_mem_tokens source.toList
  refine ⟨Cursor.yields_tokens _, ?_⟩
  exact {
    first := Token.offset_head_tokens source.toList
    last := by rw [Cursor.ofText, Token.getLast?_tokens, Nat.zero_add, Utf8.size_toList]
    chain := Token.chain_tokens 0 _
    whole := Token.flatten_tokens 0 _
    within := fun t ht => (hcovers t ht).within
    slice := fun t ht => (hcovers t ht).slice?
    allowed := hallowed
    empty := fun t ht => Token.length_span_eq_zero_iff (hallowed t ht) }

end StackMachine
