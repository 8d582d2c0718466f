import Mathlib.Data.List.Forall2
import StackMachine.Proofs.Source.Splitting

/-!
# StackMachine.Proofs.Source.Presentation

The words of a text without their places, and texts that have the same ones.

* `wordLines`: the words of each line that has any; `wordLines_eq`, these are what is read.
* `Trailing`: separators and a comment, which add no words to a line (`lineWords_trailing`).
* `SameBody`: lines that differ in what trails; `wordLines_of_sameBody`.
* `sameBody_crlf`: a text with a carriage return in front of each line break.
* `wordLines_intercalate`: words written down on one line.
-/

namespace StackMachine

/-- The words of a line: what stands between separators in front of the first semicolon. -/
def lineWords (line : List Char) : List (List Char) :=
  (Text.pieces Part.separates (line.takeWhile fun c => c != ';')).filter fun w => !w.isEmpty

def wordLines (cs : List Char) : List (List (List Char)) :=
  ((Text.pieces Part.breaks cs).map lineWords).filter fun ws => !ws.isEmpty

/-- Only separators come in front of the first semicolon, if there is one. -/
def Trailing (cs : List Char) : Prop :=
  ∀ c ∈ cs.takeWhile fun c => c != ';', Part.separates c = true

/-- Lines that are the same up to what trails. -/
def SameBody (line other : List Char) : Prop :=
  ∃ body trailing trailing', Trailing trailing ∧ Trailing trailing' ∧
    line = body ++ trailing ∧ other = body ++ trailing'

/-- A line break with a carriage return in front of it, and any other character as it is. -/
def crlf (c : Char) : List Char := if Part.breaks c then ['\r', c] else [c]

section Positions

theorem Part.text_placed (a : Nat) (ps : List (List Char)) : (placed a ps).map Part.text = ps := by
  induction ps generalizing a with
  | nil => rfl
  | cons p ps ih => rw [placed, List.map_cons, ih]

theorem Part.text_words (line : Part) : line.words.map Part.text = lineWords line.text := by
  have hpieces := text_placed line.start (Text.pieces separates line.uncommented.text)
  rw [lineWords, ← show line.uncommented.text = line.text.takeWhile (fun c => c != ';') from rfl,
    ← hpieces, List.filter_map]
  rfl

theorem wordLines_eq (cs : List Char) :
    (Token.lines cs).map (List.map Token.text) = wordLines cs := by
  have hlines : (Text.pieces Part.breaks cs).map lineWords =
      ((Part.cut Part.breaks ⟨0, cs⟩).map Part.words).map (List.map Part.text) := by
    rw [← Part.text_placed 0 (Text.pieces Part.breaks cs), List.map_map, List.map_map]
    exact List.map_congr_left fun line _ => line.text_words.symm
  have hempty : ((fun ws => !ws.isEmpty) ∘ List.map Part.text : List Part → Bool) =
      fun ws => !ws.isEmpty := by
    funext ws
    simp
  have htext : Token.text ∘ Part.token = Part.text := rfl
  rw [Token.lines_eq_map, List.map_map, List.map_comp_map, htext, wordLines, hlines,
    List.filter_map, hempty, Part.lines]

end Positions

section Trailing

variable {line other body run trailing : List Char}

theorem filter_pieces_separators (h : ∀ c ∈ run, Part.separates c = true) :
    ((Text.pieces Part.separates run).filter fun w => !w.isEmpty) = [] := by
  induction run with
  | nil => rfl
  | cons c run ih =>
    rw [Text.pieces, if_pos (h c List.mem_cons_self)]
    exact ih fun x hx => h x (List.mem_cons_of_mem c hx)

theorem filter_pieces_append (h : ∀ c ∈ run, Part.separates c = true) :
    ((Text.pieces Part.separates (body ++ run)).filter fun w => !w.isEmpty) =
      (Text.pieces Part.separates body).filter fun w => !w.isEmpty := by
  cases run with
  | nil => rw [List.append_nil]
  | cons c run =>
    rw [Text.pieces_separator _ (h c List.mem_cons_self), List.filter_append,
      filter_pieces_separators fun x hx => h x (List.mem_cons_of_mem c hx), List.append_nil]

theorem lineWords_trailing (h : Trailing trailing) :
    lineWords (body ++ trailing) = lineWords body := by
  rw [lineWords, List.takeWhile_append]
  split
  · rename_i hall
    rw [filter_pieces_append h, lineWords,
      (List.takeWhile_prefix _).eq_of_length hall]
  · rfl

theorem SameBody.lineWords_eq (h : SameBody line other) : lineWords other = lineWords line := by
  obtain ⟨body, trailing, trailing', ht, ht', rfl, rfl⟩ := h
  rw [lineWords_trailing ht, lineWords_trailing ht']

theorem SameBody.refl (line : List Char) : SameBody line line :=
  ⟨line, [], [], by simp [Trailing], by simp [Trailing], by simp, by simp⟩

theorem SameBody.cons (c : Char) (h : SameBody line other) : SameBody (c :: line) (c :: other) := by
  obtain ⟨body, trailing, trailing', ht, ht', rfl, rfl⟩ := h
  exact ⟨c :: body, trailing, trailing', ht, ht', rfl, rfl⟩

/-- What trails on any of the lines does not change the words of a text. -/
theorem wordLines_of_sameBody {cs ds : List Char}
    (h : List.Forall₂ SameBody (Text.pieces Part.breaks cs) (Text.pieces Part.breaks ds)) :
    wordLines ds = wordLines cs := by
  have hlines : (Text.pieces Part.breaks cs).map lineWords =
      (Text.pieces Part.breaks ds).map lineWords := by
    rw [← List.forall₂_eq_eq_eq, List.forall₂_map_left_iff, List.forall₂_map_right_iff]
    exact h.imp fun _ _ hline => hline.lineWords_eq.symm
  rw [wordLines, wordLines, hlines]

/-- A carriage return trails on its line, also where it is taken into a comment. -/
theorem sameBody_crlf (cs : List Char) :
    List.Forall₂ SameBody (Text.pieces Part.breaks cs)
      (Text.pieces Part.breaks (cs.flatMap crlf)) := by
  have hreturn : SameBody [] ['\r'] :=
    ⟨[], [], ['\r'], by simp [Trailing], by simp [Trailing, Part.separates], rfl, rfl⟩
  induction cs with
  | nil => exact .cons (.refl []) .nil
  | cons c cs ih =>
    rw [List.flatMap_cons, crlf, Text.pieces]
    by_cases hbreak : Part.breaks c = true
    · rw [if_pos hbreak, if_pos hbreak, List.cons_append, List.singleton_append,
        show '\r' :: c :: cs.flatMap crlf = ['\r'] ++ c :: cs.flatMap crlf from rfl,
        Text.pieces_separator Part.breaks hbreak]
      exact .cons hreturn ih
    · rw [if_neg hbreak, if_neg hbreak, List.singleton_append, Text.pieces, if_neg hbreak]
      generalize Text.pieces Part.breaks cs = lines at ih ⊢
      generalize Text.pieces Part.breaks (cs.flatMap crlf) = lines' at ih ⊢
      cases ih with
      | nil => exact .cons (.refl [c]) .nil
      | cons hline hlines => exact .cons (hline.cons c) hlines

end Trailing

section OneLine

/-- A word by itself, which ends neither its line nor what is read of it. -/
def WholeWord (w : List Char) : Prop := w ≠ [] ∧ ∀ c ∈ w, isWordChar c = true

variable {w rest sep : List Char} {ws : List (List Char)}

theorem wholeWord_of_mem_wordLines {cs : List Char} (hws : ws ∈ wordLines cs) (hw : w ∈ ws) :
    WholeWord w := by
  obtain ⟨line, hline, rfl⟩ := List.mem_map.mp (List.mem_filter.mp hws).1
  obtain ⟨hpiece, hne⟩ := List.mem_filter.mp hw
  refine ⟨by simpa using hne, fun c hc => ?_⟩
  have hseparates := Text.not_separator_of_mem_pieces Part.separates hpiece c hc
  have hmem := Text.subset_of_mem_pieces hpiece hc
  have hcomment := List.all_eq_true.mp List.all_takeWhile c hmem
  have hbreak := Text.not_separator_of_mem_pieces Part.breaks hline c
    ((List.takeWhile_prefix _).subset hmem)
  rw [← Bool.not_eq_true, Part.separates_iff, Bool.not_eq_true] at hseparates
  rw [Part.breaks] at hbreak
  simp only [isWordChar, hseparates, bne, hbreak]
  exact hcomment

theorem lineWords_word (hw : WholeWord w) (hrest : ∀ c ∈ rest.head?, isWordChar c = false)
    (hbreak : '\n' ∉ rest) : lineWords (w ++ rest) = w :: lineWords rest := by
  have hwords := Part.words_word hw.1 hw.2 hrest hbreak 0
  rw [← Part.text_words ⟨0, w ++ rest⟩, hwords, List.map_cons, Part.text_words]

theorem lineWords_separators (hsep : ∀ c ∈ sep, Part.separates c = true) :
    lineWords (sep ++ rest) = lineWords rest := by
  rw [← Part.text_words ⟨0, sep ++ rest⟩, Part.words_separators hsep, Part.text_words]

theorem not_mem_break_intercalate (hsep : '\n' ∉ sep) (hws : ∀ w ∈ ws, WholeWord w) :
    '\n' ∉ sep.intercalate ws := by
  induction ws with
  | nil => simp
  | cons w ws ih =>
    have hbreak : '\n' ∉ w := by
      intro h
      cases (hws w List.mem_cons_self).2 _ h
    cases ws with
    | nil => rwa [List.intercalate_singleton]
    | cons v vs =>
      rw [List.intercalate_cons_cons, List.mem_append, List.mem_append]
      rintro ((h | h) | h)
      · exact hbreak h
      · exact hsep h
      · exact ih (fun x hx => hws x (List.mem_cons_of_mem w hx)) h

section Separated

variable (hne : sep ≠ []) (hsep : ∀ c ∈ sep, Part.separates c = true)
  (hws : ∀ w ∈ ws, WholeWord w)

include hsep in
theorem not_mem_break_of_separates : '\n' ∉ sep := by
  intro h
  cases hsep _ h

include hne hsep hws

theorem lineWords_intercalate : lineWords (sep.intercalate ws) = ws := by
  induction ws with
  | nil => rfl
  | cons w ws ih =>
    have hw := hws w List.mem_cons_self
    have hbehind : ∀ v ∈ ws, WholeWord v := fun v hv => hws v (List.mem_cons_of_mem w hv)
    cases ws with
    | nil =>
      have hword : lineWords (w ++ []) = w :: lineWords [] :=
        lineWords_word hw (by simp) List.not_mem_nil
      rw [List.append_nil] at hword
      rw [List.intercalate_singleton, hword]
      rfl
    | cons v vs =>
      have hbreak := not_mem_break_of_separates hsep
      have hrest : '\n' ∉ sep ++ sep.intercalate (v :: vs) := by
        rw [List.mem_append, not_or]
        exact ⟨hbreak, not_mem_break_intercalate hbreak hbehind⟩
      have hfirst : ∀ c ∈ (sep ++ sep.intercalate (v :: vs)).head?, isWordChar c = false := by
        intro c hc
        rw [List.head?_append_of_ne_nil sep hne] at hc
        have hseparator := Part.separates_iff.mp (hsep c (List.mem_of_head? hc))
        simp [isWordChar, hseparator]
      rw [List.intercalate_cons_cons, List.append_assoc, lineWords_word hw hfirst hrest,
        lineWords_separators hsep, ih hbehind]

theorem wordLines_intercalate :
    wordLines (sep.intercalate ws) = [ws].filter fun ws => !ws.isEmpty := by
  have hbreak := not_mem_break_intercalate (not_mem_break_of_separates hsep) hws
  rw [wordLines, Text.pieces_of_no_separator _ (Token.ne_break hbreak), List.map_singleton,
    lineWords_intercalate hne hsep hws]

end Separated

end OneLine

end StackMachine
