import StackMachine.Proofs.Text.Decoding
import StackMachine.Source.Statement

/-!
# StackMachine.Proofs.Source.Lines

How the words of a text are grouped, and what becomes of them when text is put before or after it.

* `Token.wordsFrom`: the groups of a text that begins at a given byte. A token never reaches beyond
  the end of its line, so the groups of two lines are those of the one and those of the other
  (`wordsFrom_newline`), and a text that begins later has all its words later (`wordsFrom_add`).
* `Token.lines_newline`: the lines of a text with another one below it.
* `Span.Covers`: a place in a text holds certain characters. Every word covers its own text.
* `Span.Within`: a place lies in a text and cuts no character in two.
-/

namespace StackMachine

theorem toList_newline (s t : String) : (s ++ "\n" ++ t).toList = s.toList ++ '\n' :: t.toList := by
  simp

theorem TokenKind.continues_newline (k : TokenKind) : k.continues '\n' = false := by
  cases k <;> rfl

theorem takeWhile_newline {p : Char → Bool} (hp : p '\n' = false) (cs ds : List Char) :
    (cs ++ '\n' :: ds).takeWhile p = cs.takeWhile p := by
  induction cs with
  | nil => simp [hp]
  | cons c cs ih =>
    by_cases hc : p c = true
    · simp [hc, ih]
    · simp [hc]

theorem dropWhile_newline {p : Char → Bool} (hp : p '\n' = false) (cs ds : List Char) :
    (cs ++ '\n' :: ds).dropWhile p = cs.dropWhile p ++ '\n' :: ds := by
  induction cs with
  | nil => simp [hp]
  | cons c cs ih =>
    by_cases hc : p c = true
    · simp [hc, ih]
    · simp [hc]

theorem takeWhile_newline_kind (cs : List Char) :
    cs.takeWhile TokenKind.newline.continues = [] := by
  cases cs <;> rfl

theorem dropWhile_newline_kind (cs : List Char) :
    cs.dropWhile TokenKind.newline.continues = cs := by
  cases cs <;> rfl

theorem Token.text_append_behind (c : Char) (cs : List Char) :
    c :: cs = c :: cs.takeWhile (TokenKind.ofFirst c).continues ++
      cs.dropWhile (TokenKind.ofFirst c).continues := by
  rw [List.cons_append, List.takeWhile_append_dropWhile]

theorem Token.size_takeWhile_add (p : Char → Bool) (cs : List Char) :
    Utf8.size (cs.takeWhile p) + Utf8.size (cs.dropWhile p) = Utf8.size cs := by
  rw [← Utf8.size_append, List.takeWhile_append_dropWhile]

namespace Cursor

theorem token_fresh_cons (a : Nat) (c : Char) (cs : List Char) :
    (fresh a (c :: cs)).token =
      let kind := TokenKind.ofFirst c
      let text := c :: cs.takeWhile kind.continues
      (⟨kind, a, text⟩, fresh (a + Utf8.size text) (cs.dropWhile kind.continues)) := by
  have hsize := Token.size_takeWhile_add (TokenKind.ofFirst c).continues cs
  have hread : Utf8.size (c :: cs) - Utf8.size (cs.dropWhile (TokenKind.ofFirst c).continues) =
      Utf8.size (c :: cs.takeWhile (TokenKind.ofFirst c).continues) := by
    rw [Utf8.size_cons, Utf8.size_cons]
    omega
  rw [token_cons _ (fresh_rest a (c :: cs))]
  simp only [fresh, text, hread, List.reverse_nil, List.nil_append]

theorem tokens_nil (a : Nat) : (fresh a []).tokens = [⟨.finish, a, []⟩] := by
  rw [tokens_last _ (fresh_rest a []), token_nil _ (fresh_rest a [])]
  rfl

theorem tokens_cons (a : Nat) (c : Char) (cs : List Char) :
    (fresh a (c :: cs)).tokens =
      let kind := TokenKind.ofFirst c
      let text := c :: cs.takeWhile kind.continues
      ⟨kind, a, text⟩ :: (fresh (a + Utf8.size text) (cs.dropWhile kind.continues)).tokens := by
  rw [tokens_next _ (by simp), token_fresh_cons]

/-- Induction on the tokens of a text: from what the first token leaves to the whole. -/
@[elab_as_elim]
theorem text_induction {motive : Nat → List Char → Prop} (nil : ∀ a, motive a [])
    (cons : ∀ a c cs,
      motive (a + Utf8.size (c :: cs.takeWhile (TokenKind.ofFirst c).continues))
        (cs.dropWhile (TokenKind.ofFirst c).continues) → motive a (c :: cs))
    (a : Nat) (cs : List Char) : motive a cs := by
  induction hlen : cs.length using Nat.strongRecOn generalizing a cs with
  | _ n ih =>
    cases cs with
    | nil => exact nil a
    | cons c cs =>
      have hshort : (cs.dropWhile (TokenKind.ofFirst c).continues).length < n := by
        have := (List.dropWhile_sublist (TokenKind.ofFirst c).continues (l := cs)).length_le
        rw [← hlen, List.length_cons]
        omega
      exact cons a c cs (ih _ hshort _ _ rfl)

end Cursor

namespace Token

def shift (n : Nat) (t : Token) : Token := { t with start := t.start + n }

/-- The words of a text by line, lines without words among them, when it begins at byte `a`. -/
def wordsFrom (a : Nat) (cs : List Char) : List (List Token) :=
  groups (Cursor.fresh a cs).tokens

theorem lines_eq (cs : List Char) :
    lines cs = (wordsFrom 0 cs).filter fun line => !line.isEmpty := rfl

theorem groups_ne_nil (ts : List Token) : groups ts ≠ [] := by
  induction ts with
  | nil => simp [groups]
  | cons t ts ih =>
    simp only [groups]
    split
    · simp
    · simp
    · exact ih

section Groups

variable {t : Token} (ts : List Token)

theorem groups_newline (h : t.kind = .newline) : groups (t :: ts) = [] :: groups ts := by
  simp only [groups, h]

theorem groups_word (h : t.kind = .word) {g : List Token} {gs : List (List Token)}
    (hts : groups ts = g :: gs) : groups (t :: ts) = (t :: g) :: gs := by
  simp only [groups, h, hts]

theorem groups_other (hn : t.kind ≠ .newline) (hw : t.kind ≠ .word) :
    groups (t :: ts) = groups ts := by
  obtain ⟨g, gs, hts⟩ := List.exists_cons_of_ne_nil (groups_ne_nil ts)
  cases hk : t.kind with
  | newline => exact absurd hk hn
  | word => exact absurd hk hw
  | comment => simp only [groups, hk]
  | blank => simp only [groups, hk]
  | finish => simp only [groups, hk]

end Groups

theorem mem_of_mem_groups {ts g : List Token} {t : Token} (hg : g ∈ groups ts) (ht : t ∈ g) :
    t ∈ ts := by
  induction ts generalizing g with
  | nil =>
    simp only [groups, List.mem_singleton] at hg
    subst hg
    cases ht
  | cons u us ih =>
    obtain ⟨h, hs, hus⟩ := List.exists_cons_of_ne_nil (groups_ne_nil us)
    by_cases hn : u.kind = .newline
    · rw [groups_newline us hn] at hg
      rcases List.mem_cons.mp hg with rfl | hg
      · cases ht
      · exact List.mem_cons_of_mem u (ih hg ht)
    · by_cases hw : u.kind = .word
      · rw [groups_word us hw hus] at hg
        rcases List.mem_cons.mp hg with rfl | hg
        · rcases List.mem_cons.mp ht with rfl | ht
          · exact List.mem_cons_self
          · exact List.mem_cons_of_mem u (ih (by rw [hus]; exact List.mem_cons_self) ht)
        · exact List.mem_cons_of_mem u (ih (by rw [hus]; exact List.mem_cons_of_mem h hg) ht)
      · rw [groups_other us hn hw] at hg
        exact List.mem_cons_of_mem u (ih hg ht)

theorem groups_shift (n : Nat) (ts : List Token) :
    groups (ts.map (shift n)) = (groups ts).map (List.map (shift n)) := by
  induction ts with
  | nil => rfl
  | cons t ts ih =>
    obtain ⟨g, gs, hts⟩ := List.exists_cons_of_ne_nil (groups_ne_nil ts)
    rw [List.map_cons]
    by_cases hn : t.kind = .newline
    · rw [groups_newline ts hn, groups_newline (t := t.shift n) _ hn, ih]
      rfl
    · by_cases hw : t.kind = .word
      · rw [hts, List.map_cons] at ih
        rw [groups_word ts hw hts, groups_word (t := t.shift n) _ hw ih]
        rfl
      · rw [groups_other ts hn hw, groups_other (t := t.shift n) _ hn hw, ih]

theorem wordsFrom_nil (a : Nat) : wordsFrom a [] = [[]] := by
  rw [wordsFrom, Cursor.tokens_nil]
  rfl

theorem wordsFrom_ne_nil (a : Nat) (cs : List Char) : wordsFrom a cs ≠ [] := groups_ne_nil _

theorem wordsFrom_break (a : Nat) (cs : List Char) :
    wordsFrom a ('\n' :: cs) = [] :: wordsFrom (a + 1) cs := by
  have hkind : TokenKind.ofFirst '\n' = .newline := by decide
  rw [wordsFrom, Cursor.tokens_cons, hkind]
  simp only [takeWhile_newline_kind, dropWhile_newline_kind]
  exact groups_newline _ rfl

section First

variable {c : Char} (a : Nat) (cs : List Char)

theorem wordsFrom_word (h : TokenKind.ofFirst c = .word) {g : List Token} {gs : List (List Token)}
    (hrest : wordsFrom (a + Utf8.size (c :: cs.takeWhile TokenKind.word.continues))
      (cs.dropWhile TokenKind.word.continues) = g :: gs) :
    wordsFrom a (c :: cs) =
      (⟨.word, a, c :: cs.takeWhile TokenKind.word.continues⟩ :: g) :: gs := by
  rw [wordsFrom, Cursor.tokens_cons, h]
  exact groups_word _ rfl hrest

theorem wordsFrom_other (hn : TokenKind.ofFirst c ≠ .newline) (hw : TokenKind.ofFirst c ≠ .word) :
    wordsFrom a (c :: cs) =
      wordsFrom (a + Utf8.size (c :: cs.takeWhile (TokenKind.ofFirst c).continues))
        (cs.dropWhile (TokenKind.ofFirst c).continues) := by
  rw [wordsFrom, Cursor.tokens_cons]
  exact groups_other _ hn hw

end First

theorem eq_newline_of_ofFirst {c : Char} (h : TokenKind.ofFirst c = .newline) : c = '\n' := by
  simp only [TokenKind.ofFirst] at h
  split at h
  · cases h
  · split at h
    · rename_i hc
      simpa using hc
    · split at h <;> cases h

theorem wordsFrom_newline (a : Nat) (cs ds : List Char) :
    wordsFrom a (cs ++ '\n' :: ds) = wordsFrom a cs ++ wordsFrom (a + Utf8.size cs + 1) ds := by
  induction a, cs using Cursor.text_induction with
  | nil a =>
    rw [wordsFrom_nil, List.nil_append, wordsFrom_break]
    rfl
  | cons a c cs hrest =>
    have hk := (TokenKind.ofFirst c).continues_newline
    have hplace : a + Utf8.size (c :: cs.takeWhile (TokenKind.ofFirst c).continues) +
        Utf8.size (cs.dropWhile (TokenKind.ofFirst c).continues) + 1 =
          a + Utf8.size (c :: cs) + 1 := by
      have := size_takeWhile_add (TokenKind.ofFirst c).continues cs
      rw [Utf8.size_cons, Utf8.size_cons]
      omega
    -- The first token ends before the break, so it is the same with and without the lower text.
    rw [hplace, ← dropWhile_newline hk, ← takeWhile_newline hk cs ds] at hrest
    rw [List.cons_append]
    by_cases hn : TokenKind.ofFirst c = .newline
    · obtain rfl := eq_newline_of_ofFirst hn
      rw [hn, takeWhile_newline_kind, dropWhile_newline_kind, dropWhile_newline_kind] at hrest
      rw [wordsFrom_break, wordsFrom_break, List.cons_append]
      exact congrArg ([] :: ·) hrest
    · by_cases hw : TokenKind.ofFirst c = .word
      · -- A word joins the first group behind it, which has to be named on both sides.
        rw [hw] at hrest hk
        obtain ⟨g, gs, hg⟩ := List.exists_cons_of_ne_nil (wordsFrom_ne_nil
          (a + Utf8.size (c :: cs.takeWhile TokenKind.word.continues))
          (cs.dropWhile TokenKind.word.continues))
        have hupper := hg
        rw [← takeWhile_newline hk cs ds] at hg
        rw [hg, List.cons_append] at hrest
        rw [wordsFrom_word a _ hw hrest, wordsFrom_word a _ hw hupper, List.cons_append,
          takeWhile_newline hk]
      · rw [wordsFrom_other a _ hn hw, wordsFrom_other a _ hn hw, hrest, takeWhile_newline hk]

theorem tokens_add (n a : Nat) (cs : List Char) :
    (Cursor.fresh (a + n) cs).tokens = (Cursor.fresh a cs).tokens.map (shift n) := by
  induction a, cs using Cursor.text_induction with
  | nil a =>
    rw [Cursor.tokens_nil, Cursor.tokens_nil]
    rfl
  | cons a c cs hrest =>
    rw [Nat.add_right_comm] at hrest
    rw [Cursor.tokens_cons, Cursor.tokens_cons]
    simp only [List.map_cons, hrest]
    rfl

theorem wordsFrom_add (n a : Nat) (cs : List Char) :
    wordsFrom (a + n) cs = (wordsFrom a cs).map (List.map (shift n)) := by
  rw [wordsFrom, tokens_add, groups_shift]
  rfl

theorem lines_newline (cs ds : List Char) :
    lines (cs ++ '\n' :: ds) = lines cs ++ (lines ds).map (List.map (shift (Utf8.size cs + 1))) := by
  have hplace : 0 + Utf8.size cs + 1 = 0 + (Utf8.size cs + 1) := by omega
  rw [lines_eq, wordsFrom_newline, List.filter_append, hplace, wordsFrom_add, lines_eq, lines_eq,
    List.filter_map]
  congr 3
  funext line
  cases line <;> rfl

theorem place_of_mem_tokens (a : Nat) (cs : List Char) :
    ∀ t ∈ (Cursor.fresh a cs).tokens,
      ∃ before after, cs = before ++ t.text ++ after ∧ t.start = a + Utf8.size before := by
  induction a, cs using Cursor.text_induction with
  | nil a =>
    intro t ht
    rw [Cursor.tokens_nil, List.mem_singleton] at ht
    subst ht
    exact ⟨[], [], rfl, rfl⟩
  | cons a c cs hrest =>
    intro t ht
    have hsplit := Token.text_append_behind c cs
    rw [Cursor.tokens_cons] at ht
    rcases List.mem_cons.mp ht with rfl | ht
    · exact ⟨[], _, hsplit, rfl⟩
    · obtain ⟨before, after, hcs, hstart⟩ := hrest t ht
      refine ⟨c :: cs.takeWhile (TokenKind.ofFirst c).continues ++ before, after, ?_, ?_⟩
      · rw [hsplit, hcs]
        simp only [List.append_assoc]
      · rw [hstart, Utf8.size_append]
        omega

end Token

/-- The text at a place, counted in bytes. -/
def Span.Covers (cs : List Char) (s : Span) (text : List Char) : Prop :=
  ∃ before after, cs = before ++ text ++ after ∧ s.offset = Utf8.size before ∧
    s.length = Utf8.size text

/-- Every token stands where its span says. -/
theorem Token.covers_of_mem_tokens (cs : List Char) :
    ∀ t ∈ (Cursor.ofText cs).tokens, t.span.Covers cs t.text := by
  intro t ht
  obtain ⟨before, after, hcs, hstart⟩ := place_of_mem_tokens 0 cs t ht
  exact ⟨before, after, hcs, by rw [Token.span, hstart, Nat.zero_add], rfl⟩

theorem Token.covers_of_mem_lines {cs : List Char} {line : List Token} {t : Token}
    (hline : line ∈ lines cs) (ht : t ∈ line) : t.span.Covers cs t.text :=
  covers_of_mem_tokens cs t (mem_of_mem_groups (List.mem_filter.mp hline).1 ht)

theorem Span.Covers.left {cs first second : List Char} {s : Span}
    (h : s.Covers cs (first ++ second)) : (⟨s.offset, Utf8.size first⟩ : Span).Covers cs first := by
  obtain ⟨before, after, hcs, hoffset, -⟩ := h
  exact ⟨before, second ++ after, by rw [hcs]; simp only [List.append_assoc], hoffset, rfl⟩

/-- A place lies in a text, and both of its ends are between characters. -/
structure Span.Within (source : String) (s : Span) : Prop where
  finish_le : s.offset + s.length ≤ source.utf8ByteSize
  first : (⟨s.offset⟩ : String.Pos.Raw).IsValid source
  last : (⟨s.offset + s.length⟩ : String.Pos.Raw).IsValid source

section Covers

variable {cs text : List Char} {s : Span}

theorem Span.Covers.middle {before after : List Char} (h : s.Covers cs (before ++ text ++ after)) :
    (⟨s.offset + Utf8.size before, Utf8.size text⟩ : Span).Covers cs text := by
  obtain ⟨front, back, hcs, hoffset, -⟩ := h
  refine ⟨front ++ before, after ++ back, ?_, ?_, rfl⟩
  · rw [hcs]
    simp only [List.append_assoc]
  · rw [hoffset, Utf8.size_append]

theorem Span.Covers.finish (h : s.Covers cs text) : (⟨s.finish, 0⟩ : Span).Covers cs [] := by
  have hlength : s.finish = s.offset + Utf8.size text := by
    obtain ⟨-, -, -, -, hlength⟩ := h
    rw [Span.finish, hlength]
  have hparts : s.Covers cs (text ++ [] ++ []) := by simpa using h
  rw [hlength]
  exact hparts.middle

theorem Span.Covers.within {source : String} (h : s.Covers source.toList text) :
    s.Within source := by
  obtain ⟨front, back, hsource, hoffset, hlength⟩ := h
  have hparts : source = String.ofList front ++ String.ofList text ++ String.ofList back := by
    rw [← String.ofList_append, ← String.ofList_append, ← hsource, String.ofList_toList]
  have hfront : (String.ofList front).utf8ByteSize = s.offset := by
    rw [← Utf8.size_toList, String.toList_ofList, hoffset]
  have htext : (String.ofList text).utf8ByteSize = s.length := by
    rw [← Utf8.size_toList, String.toList_ofList, hlength]
  refine ⟨?_, ?_, ?_⟩
  · rw [hparts, String.utf8ByteSize_append, String.utf8ByteSize_append, hfront, htext]
    exact Nat.le_add_right _ _
  · refine String.Pos.Raw.isValid_iff_exists_append.mpr
      ⟨String.ofList front, String.ofList text ++ String.ofList back, ?_, ?_⟩
    · rw [hparts, String.append_assoc]
    · rw [String.rawEndPos, hfront]
  · refine String.Pos.Raw.isValid_iff_exists_append.mpr
      ⟨String.ofList front ++ String.ofList text, String.ofList back, hparts, ?_⟩
    rw [String.rawEndPos, String.utf8ByteSize_append, hfront, htext]

end Covers

end StackMachine
