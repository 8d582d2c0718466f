import StackMachine.Proofs.Source.Lines
import StackMachine.Proofs.Text.Words

/-!
# StackMachine.Proofs.Source.Splitting

The words of a text, cut out of it by splitting alone.

* `Part`: a part of a text and the byte at which it begins; `Part.cut` are the parts between
  separators.
* `Part.words`, `Part.lines`: a text cut at its line breaks, each line up to its first semicolon cut
  at separators, and whatever is empty dropped.
* `wordsFrom_line`, `wordsFrom_eq_cut`: the words of one line, and of all lines.
* `Part.pairwise_lines`: the words of a text stand one behind the other.
* `Span.slice?`: the characters at a place, if it cuts none in two (`Utf8.front?`, `Utf8.behind?`).
* `lines_eq_cut`: the lines of a text are those that splitting yields.
-/

namespace StackMachine

/-- A part of a text, and the byte at which it begins. -/
structure Part where
  start : Nat
  text : List Char

namespace Part

/-- Texts that stand one behind the other, with one byte between each two of them. -/
def placed (a : Nat) : List (List Char) → List Part
  | [] => []
  | p :: ps => ⟨a, p⟩ :: placed (a + Utf8.size p + 1) ps

def cut (separates : Char → Bool) (p : Part) : List Part :=
  placed p.start (Text.pieces separates p.text)

def breaks (c : Char) : Bool := c == '\n'

def separates (c : Char) : Bool := [' ', '\t', '\r', ','].contains c

def uncommented (p : Part) : Part := { p with text := p.text.takeWhile fun c => c != ';' }

/-- The words of a line: what stands between separators before the first semicolon. -/
def words (line : Part) : List Part :=
  (line.uncommented.cut separates).filter fun w => !w.text.isEmpty

/-- The words of each line that has any. -/
def lines (cs : List Char) : List (List Part) :=
  ((cut breaks ⟨0, cs⟩).map words).filter fun ws => !ws.isEmpty

def token (p : Part) : Token := ⟨.word, p.start, p.text⟩

def finish (p : Part) : Nat := p.start + Utf8.size p.text

theorem separates_iff {c : Char} : separates c = true ↔ isSeparator c = true := by
  simp [separates, isSeparator, or_assoc]

section Separator

variable {c : Char} (hc : separates c = true)

include hc

theorem utf8Size_of_separates : c.utf8Size = 1 := by
  simp only [separates, List.contains_iff_mem, List.mem_cons, List.not_mem_nil, or_false] at hc
  rcases hc with rfl | rfl | rfl | rfl <;> rfl

theorem ne_semicolon_of_separates : (c != ';') = true := by
  simp only [separates, List.contains_iff_mem, List.mem_cons, List.not_mem_nil, or_false] at hc
  rcases hc with rfl | rfl | rfl | rfl <;> rfl

theorem words_separator (a : Nat) (cs : List Char) : words ⟨a, c :: cs⟩ = words ⟨a + 1, cs⟩ := by
  simp [words, uncommented, cut, ne_semicolon_of_separates hc, Text.pieces, hc, placed]

end Separator

theorem words_nil (a : Nat) : words ⟨a, []⟩ = [] := rfl

theorem words_comment (a : Nat) (cs : List Char) : words ⟨a, ';' :: cs⟩ = [] := by
  simp [words, uncommented, cut, Text.pieces, placed]

/-- A run of separators changes nothing but where the rest begins. -/
theorem words_separators {run : List Char} (h : ∀ c ∈ run, separates c = true) (a : Nat)
    (cs : List Char) : words ⟨a, run ++ cs⟩ = words ⟨a + Utf8.size run, cs⟩ := by
  induction run generalizing a with
  | nil => rfl
  | cons c run ih =>
    have hc := h c List.mem_cons_self
    rw [List.cons_append, words_separator hc, ih fun x hx => h x (List.mem_cons_of_mem c hx),
      Utf8.size_cons, utf8Size_of_separates hc, Nat.add_assoc]

theorem words_word {w rest : List Char} (hne : w ≠ []) (hw : ∀ c ∈ w, isWordChar c = true)
    (hrest : ∀ c ∈ rest.head?, isWordChar c = false) (hline : '\n' ∉ rest) (a : Nat) :
    words ⟨a, w ++ rest⟩ = ⟨a, w⟩ :: words ⟨a + Utf8.size w, rest⟩ := by
  have hsplit : ∀ c ∈ w, separates c = false ∧ (c != ';') = true := by
    intro c hc
    have h := hw c hc
    simp only [isWordChar, Bool.and_eq_true, Bool.not_eq_true'] at h
    refine ⟨?_, h.2⟩
    rw [← Bool.not_eq_true, separates_iff]
    simp [h.1.1]
  have hpieces : Text.pieces separates w = [w] :=
    Text.pieces_of_no_separator separates fun c hc => (hsplit c hc).1
  have hbefore : uncommented ⟨a, w ++ rest⟩ = ⟨a, w ++ rest.takeWhile fun c => c != ';'⟩ :=
    congrArg (Part.mk a) (List.takeWhile_append_of_pos fun c hc => (hsplit c hc).2)
  rw [words, hbefore]
  cases rest with
  | nil => simp [cut, hpieces, placed, hne, words_nil]
  | cons d ds =>
    have hd := hrest d rfl
    have hbreak : d ≠ '\n' := by
      rintro rfl
      exact hline List.mem_cons_self
    by_cases hcomment : d = ';'
    · subst hcomment
      simp [cut, hpieces, placed, hne, words_comment]
    · have hs : separates d = true := by
        rw [separates_iff]
        simpa [isWordChar, hbreak, hcomment] using hd
      rw [words_separator hs]
      simp [words, uncommented, cut, ne_semicolon_of_separates hs,
        Text.pieces_separator separates hs, hpieces, placed, hne]

theorem cut_separator (separates : Char → Bool) {c : Char} (hc : separates c = true) (a : Nat)
    {line : List Char} (hline : ∀ x ∈ line, separates x = false) (cs : List Char) :
    cut separates ⟨a, line ++ c :: cs⟩ =
      ⟨a, line⟩ :: cut separates ⟨a + Utf8.size line + 1, cs⟩ := by
  simp [cut, Text.pieces_separator separates hc, Text.pieces_of_no_separator separates hline,
    placed]

end Part

theorem stop_of_dropWhile (p : Char → Bool) (cs : List Char) :
    ∀ x ∈ (cs.dropWhile p).head?, p x = false := by
  intro x hx
  have h := List.head?_dropWhile_not p cs
  rwa [Option.mem_def.mp hx] at h

/-- A first character with the kind of token that it begins. -/
inductive TokenKind.Begins (c : Char) : TokenKind → Prop where
  | comment : c = ';' → Begins c .comment
  | newline : c = '\n' → Begins c .newline
  | blank : isSeparator c = true → Begins c .blank
  | word : isWordChar c = true → Begins c .word

theorem TokenKind.begins_ofFirst (c : Char) : Begins c (ofFirst c) := by
  unfold ofFirst
  split
  · rename_i hcomment
    exact .comment (by simpa using hcomment)
  · rename_i hcomment
    split
    · rename_i hnewline
      exact .newline (by simpa using hnewline)
    · rename_i hnewline
      split
      · rename_i hseparator
        exact .blank hseparator
      · rename_i hseparator
        refine .word ?_
        simp only [isWordChar, bne, hcomment, hnewline, hseparator]
        rfl

namespace Token

/-- The words of one line are those that splitting yields. -/
theorem wordsFrom_line (a : Nat) (cs : List Char) (hline : '\n' ∉ cs) :
    wordsFrom a cs = [(Part.words ⟨a, cs⟩).map Part.token] := by
  induction a, cs using Cursor.text_induction with
  | nil a => rw [wordsFrom_nil, Part.words_nil, List.map_nil]
  | cons a c cs ih =>
    have hbegins := TokenKind.begins_ofFirst c
    have hrest : '\n' ∉ cs.dropWhile (TokenKind.ofFirst c).continues := by
      intro h
      exact hline (List.mem_cons_of_mem c ((List.dropWhile_sublist _).subset h))
    have hwhole := text_append_behind c cs
    have hrun : ∀ x ∈ cs.takeWhile (TokenKind.ofFirst c).continues,
        (TokenKind.ofFirst c).continues x = true := List.all_eq_true.mp List.all_takeWhile
    have hstop := stop_of_dropWhile (TokenKind.ofFirst c).continues cs
    specialize ih hrest
    generalize hk : TokenKind.ofFirst c = k at *
    cases hbegins with
    | comment hc =>
      subst hc
      -- A comment takes the rest of the line with it.
      have hnothing : cs.dropWhile TokenKind.comment.continues = [] := by
        cases hcs : cs.dropWhile TokenKind.comment.continues with
        | nil => rfl
        | cons x xs =>
          rw [hcs] at hstop hrest
          have hx : x = '\n' := by simpa [TokenKind.continues] using hstop x rfl
          exact absurd (hx ▸ List.mem_cons_self) hrest
      rw [wordsFrom_other a cs (by simp [hk]) (by simp [hk]), hk, hnothing, wordsFrom_nil,
        Part.words_comment, List.map_nil]
    | newline hc =>
      subst hc
      exact absurd List.mem_cons_self hline
    | blank hc =>
      have hall : ∀ x ∈ c :: cs.takeWhile TokenKind.blank.continues, Part.separates x = true := by
        intro x hx
        rw [Part.separates_iff]
        rcases List.mem_cons.mp hx with rfl | hx
        · exact hc
        · exact hrun x hx
      rw [wordsFrom_other a cs (by simp [hk]) (by simp [hk]), hk, ih, hwhole,
        Part.words_separators hall]
    | word hc =>
      have hall : ∀ x ∈ c :: cs.takeWhile TokenKind.word.continues, isWordChar x = true := by
        intro x hx
        rcases List.mem_cons.mp hx with rfl | hx
        · exact hc
        · exact hrun x hx
      rw [wordsFrom_word a cs hk ih, hwhole,
        Part.words_word (List.cons_ne_nil _ _) hall hstop hrest, List.map_cons]
      rfl

/-- Induction on the lines of a text, from the last to the first. -/
@[elab_as_elim]
theorem line_induction {motive : Nat → List Char → Prop}
    (last : ∀ a cs, '\n' ∉ cs → motive a cs)
    (line : ∀ a cs ds, '\n' ∉ cs → motive (a + Utf8.size cs + 1) ds → motive a (cs ++ '\n' :: ds))
    (a : Nat) (cs : List Char) : motive a cs := by
  induction hlen : cs.length using Nat.strongRecOn generalizing a cs with
  | _ n ih =>
    by_cases hbreak : '\n' ∈ cs
    · obtain ⟨first, rest, rfl, hfirst⟩ := List.eq_append_cons_of_mem hbreak
      have hshort : rest.length < n := by
        rw [← hlen, List.length_append, List.length_cons]
        omega
      exact line a first rest hfirst (ih _ hshort _ rest rfl)
    · exact last a cs hbreak

theorem ne_break {cs : List Char} (h : '\n' ∉ cs) : ∀ c ∈ cs, Part.breaks c = false := by
  intro c hc
  rw [Part.breaks, beq_eq_false_iff_ne]
  rintro rfl
  exact h hc

theorem wordsFrom_eq_cut (a : Nat) (cs : List Char) :
    wordsFrom a cs =
      (Part.cut Part.breaks ⟨a, cs⟩).map fun line => line.words.map Part.token := by
  induction a, cs using line_induction with
  | last a cs hline =>
    rw [wordsFrom_line a cs hline, Part.cut, Text.pieces_of_no_separator _ (ne_break hline)]
    rfl
  | line a cs ds hline ih =>
    rw [wordsFrom_newline, wordsFrom_line a cs hline, ih,
      Part.cut_separator Part.breaks rfl a (ne_break hline), List.map_cons]
    rfl

theorem lines_eq_map (cs : List Char) : lines cs = (Part.lines cs).map (List.map Part.token) := by
  rw [lines_eq, wordsFrom_eq_cut, Part.lines, List.filter_map, List.filter_map, List.map_map]
  congr 2
  funext line
  simp

end Token

namespace Part

section Order

variable {a : Nat} {ps : List (List Char)} {p x : Part} {separates : Char → Bool}

theorem le_of_mem_placed (h : x ∈ placed a ps) : a ≤ x.start := by
  induction ps generalizing a with
  | nil => cases h
  | cons p ps ih =>
    rcases List.mem_cons.mp h with rfl | h
    · exact Nat.le_refl a
    · have := ih h
      omega

theorem pairwise_placed (a : Nat) (ps : List (List Char)) :
    (placed a ps).Pairwise fun x y => x.finish < y.start := by
  induction ps generalizing a with
  | nil => exact .nil
  | cons p ps ih =>
    refine .cons ?_ (ih _)
    intro y hy
    exact le_of_mem_placed hy

theorem finish_le_of_mem_placed (hone : ∀ c, separates c = true → c.utf8Size = 1) {cs : List Char}
    (h : x ∈ placed a (Text.pieces separates cs)) : x.finish ≤ a + Utf8.size cs := by
  induction cs generalizing a x with
  | nil =>
    simp only [Text.pieces, placed, List.mem_singleton] at h
    subst h
    exact Nat.le_refl _
  | cons c cs ih =>
    rw [Utf8.size_cons, ← Nat.add_assoc]
    rw [Text.pieces] at h
    split at h
    · rename_i hc
      rw [hone c hc]
      rcases List.mem_cons.mp h with rfl | h
      · simp only [finish, Utf8.size_nil]
        omega
      · exact ih h
    · cases hpieces : Text.pieces separates cs with
      | nil => exact absurd hpieces (Text.pieces_ne_nil separates cs)
      | cons first rest =>
        rw [hpieces] at h ih
        -- The first piece has the character in front of it, all others stand where they stood.
        rcases List.mem_cons.mp h with rfl | h
        · have hfirst := ih (a := a + c.utf8Size) List.mem_cons_self
          simp only [finish, Utf8.size_cons] at hfirst ⊢
          omega
        · rw [Utf8.size_cons, ← Nat.add_assoc] at h
          exact ih (List.mem_cons_of_mem _ h)

theorem within_of_mem_words (h : x ∈ p.words) : p.start ≤ x.start ∧ x.finish ≤ p.finish := by
  have hx := (List.mem_filter.mp h).1
  have hfinish := finish_le_of_mem_placed (fun _ => utf8Size_of_separates) hx
  have hcomment := Token.size_takeWhile_add (fun c => c != ';') p.text
  refine ⟨le_of_mem_placed hx, ?_⟩
  simp only [finish, uncommented] at hfinish ⊢
  omega

theorem pairwise_words (p : Part) : p.words.Pairwise fun x y => x.finish < y.start :=
  (pairwise_placed _ _).filter _

theorem pairwise_lines (cs : List Char) :
    (lines cs).flatten.Pairwise fun x y => x.finish < y.start := by
  rw [List.pairwise_flatten]
  constructor
  · intro ws hws
    obtain ⟨line, -, rfl⟩ := List.mem_map.mp (List.mem_filter.mp hws).1
    exact pairwise_words line
  · refine List.Pairwise.filter _ (List.pairwise_map.mpr ((pairwise_placed _ _).imp ?_))
    intro line below hlt x hx y hy
    have := (within_of_mem_words hx).2
    have := (within_of_mem_words hy).1
    omega

end Order

end Part

namespace Utf8

/-- The characters in the first so many bytes, if that cuts none in two. -/
def front? : List Char → Nat → Option (List Char)
  | _, 0 => some []
  | [], _ + 1 => none
  | c :: cs, n + 1 =>
    if c.utf8Size ≤ n + 1 then (front? cs (n + 1 - c.utf8Size)).map (c :: ·) else none

def behind? : List Char → Nat → Option (List Char)
  | cs, 0 => some cs
  | [], _ + 1 => none
  | c :: cs, n + 1 => if c.utf8Size ≤ n + 1 then behind? cs (n + 1 - c.utf8Size) else none

theorem exists_size_cons (c : Char) (cs : List Char) :
    ∃ n, size (c :: cs) = n + 1 ∧ c.utf8Size ≤ n + 1 ∧ n + 1 - c.utf8Size = size cs := by
  have hpos := c.utf8Size_pos
  refine ⟨size (c :: cs) - 1, ?_⟩
  rw [size_cons]
  omega

theorem front?_append (cs ds : List Char) : front? (cs ++ ds) (size cs) = some cs := by
  induction cs with
  | nil => cases ds <;> rfl
  | cons c cs ih =>
    obtain ⟨n, hsize, hle, hrest⟩ := exists_size_cons c cs
    rw [hsize, List.cons_append, front?, if_pos hle, hrest, ih]
    rfl

theorem behind?_append (cs ds : List Char) : behind? (cs ++ ds) (size cs) = some ds := by
  induction cs with
  | nil => cases ds <;> rfl
  | cons c cs ih =>
    obtain ⟨n, hsize, hle, hrest⟩ := exists_size_cons c cs
    rw [hsize, List.cons_append, behind?, if_pos hle, hrest, ih]

end Utf8

/-- The characters at a place in a text, if there is such a place and it cuts none in two. -/
def Span.slice? (s : Span) (cs : List Char) : Option (List Char) :=
  (Utf8.behind? cs s.offset).bind fun rest => Utf8.front? rest s.length

theorem Span.Covers.slice? {cs text : List Char} {s : Span} (h : s.Covers cs text) :
    s.slice? cs = some text := by
  obtain ⟨before, after, rfl, hoffset, hlength⟩ := h
  rw [Span.slice?, hoffset, hlength, List.append_assoc, Utf8.behind?_append, Option.bind_some,
    Utf8.front?_append]

/-- The lines of a text are its words as splitting yields them: the text is cut at every line break,
each piece up to its first semicolon at every separator, and empty words and lines are dropped. The
places of the words lie one behind the other, and each of them holds its word. -/
theorem lines_eq_cut (source : String) :
    Token.lines source.toList = (Part.lines source.toList).map (List.map Part.token) ∧
      (Token.lines source.toList).flatten.Pairwise (fun t u => t.span.finish < u.span.offset) ∧
      ∀ t ∈ (Token.lines source.toList).flatten,
        t.text ≠ [] ∧ t.span.slice? source.toList = some t.text := by
  have hlines := Token.lines_eq_map source.toList
  refine ⟨hlines, ?_, ?_⟩
  · rw [hlines, ← List.map_flatten, List.pairwise_map]
    exact Part.pairwise_lines source.toList
  · intro t ht
    obtain ⟨line, hline, ht⟩ := List.mem_flatten.mp ht
    refine ⟨?_, (Token.covers_of_mem_lines hline ht).slice?⟩
    rw [hlines] at hline
    obtain ⟨words, hwords, rfl⟩ := List.mem_map.mp hline
    obtain ⟨w, hw, rfl⟩ := List.mem_map.mp ht
    obtain ⟨line, -, rfl⟩ := List.mem_map.mp (List.mem_filter.mp hwords).1
    have hne := (List.mem_filter.mp hw).2
    intro hempty
    simp [show w.text = [] from hempty] at hne

end StackMachine
