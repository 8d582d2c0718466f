import StackMachine.Text.Blank

/-!
# StackMachine.Proofs.Text.Words

The words of a text.

* `Text.words_blank`: a text can be cut at any blank without a change to its words.
* `Text.IsWord`: what is a word; every word of a text is one.
* `Text.spread`, `Text.words_spread`: words written down one per line are the words of that text.
-/

namespace StackMachine

namespace Text

theorem pieces_separator (p : Char → Bool) {c : Char} (hc : p c = true) (as bs : List Char) :
    pieces p (as ++ c :: bs) = pieces p as ++ pieces p bs := by
  induction as with
  | nil => simp [pieces, hc]
  | cons a as ih =>
    rw [List.cons_append, pieces, pieces, ih]
    split
    · rfl
    · cases hs : pieces p as with
      | nil => exact absurd hs (pieces_ne_nil p as)
      | cons q qs => rfl

theorem pieces_of_no_separator (p : Char → Bool) {w : List Char} (h : ∀ c ∈ w, p c = false) :
    pieces p w = [w] := by
  induction w with
  | nil => rfl
  | cons c w ih =>
    have hc := h c List.mem_cons_self
    rw [pieces, ih fun x hx => h x (List.mem_cons_of_mem c hx)]
    simp [hc]

theorem not_separator_of_mem_pieces (p : Char → Bool) {cs w : List Char} (hw : w ∈ pieces p cs) :
    ∀ c ∈ w, p c = false := by
  induction cs generalizing w with
  | nil =>
    rw [pieces, List.mem_singleton] at hw
    simp [hw]
  | cons a cs ih =>
    rw [pieces] at hw
    split at hw
    · rcases List.mem_cons.mp hw with rfl | hw
      · simp
      · exact ih hw
    · rename_i ha
      split at hw
      · rw [List.mem_singleton] at hw
        subst hw
        simpa using ha
      · rename_i q qs hq
        rcases List.mem_cons.mp hw with rfl | hw
        · intro c hc
          rcases List.mem_cons.mp hc with rfl | hc
          · simpa using ha
          · exact ih (by simp [hq]) c hc
        · exact ih (by simp [hq, hw])

theorem subset_of_mem_pieces {p : Char → Bool} {cs w : List Char} (hw : w ∈ pieces p cs) :
    w ⊆ cs := by
  induction cs generalizing w with
  | nil =>
    rw [pieces, List.mem_singleton] at hw
    rw [hw]
    exact List.nil_subset _
  | cons a cs ih =>
    rw [pieces] at hw
    split at hw
    · rcases List.mem_cons.mp hw with rfl | hw
      · exact List.nil_subset _
      · exact List.subset_cons_of_subset a (ih hw)
    · cases hpieces : pieces p cs with
      | nil => exact absurd hpieces (pieces_ne_nil p cs)
      | cons q qs =>
        rw [hpieces] at hw ih
        rcases List.mem_cons.mp hw with rfl | hw
        · exact List.cons_subset_cons a (ih List.mem_cons_self)
        · exact List.subset_cons_of_subset a (ih (List.mem_cons_of_mem q hw))

theorem words_blank {c : Char} (hc : isBlank c = true) (as bs : List Char) :
    words (as ++ c :: bs) = words as ++ words bs := by
  rw [words, pieces_separator isBlank hc, List.filter_append]
  rfl

/-- A text of its own that is not cut any further. -/
def IsWord (w : List Char) : Prop := w ≠ [] ∧ ∀ c ∈ w, isBlank c = false

theorem isWord_of_mem_words {w cs : List Char} (h : w ∈ words cs) : IsWord w :=
  ⟨ne_nil_of_mem_words h, not_separator_of_mem_pieces isBlank (List.mem_filter.mp h).1⟩

theorem words_of_isWord {w : List Char} (h : IsWord w) : words w = [w] := by
  rw [words, pieces_of_no_separator isBlank h.2]
  simp [h.1]

/-- The text that has each of the given words on a line of its own. -/
def spread (ws : List (List Char)) : List Char := ws.flatMap fun w => w ++ ['\n']

theorem words_spread {ws : List (List Char)} (h : ∀ w ∈ ws, IsWord w) : words (spread ws) = ws := by
  induction ws with
  | nil => rfl
  | cons w ws ih =>
    have hrest := ih fun v hv => h v (List.mem_cons_of_mem w hv)
    have hblank : isBlank '\n' = true := by decide
    rw [spread, List.flatMap_cons, List.append_assoc, List.singleton_append, words_blank hblank,
      words_of_isWord (h w List.mem_cons_self), ← spread, hrest, List.singleton_append]

end Text
end StackMachine
