import StackMachine.Proofs.Assembly.Relabeling
import StackMachine.Proofs.Source.Presentation
import StackMachine.Proofs.Source.Roles

/-!
# StackMachine.Proofs.Assembly.Respelling

Programs that say the same on other lines and in another case.

* `Written.respelled`, `Split.respelled`, `Reads.respelled`: other words that agree with those of a
  program are read as the same statements, apart from places.
* `Restates`: a text that has the words of another one in this sense; it has the same code
  (`assemble_of_restates`).
* `presentation_free`: how a program is presented does not reach its code.
-/

namespace StackMachine

section Reading

variable {asked : Option Operand} {t : Token} {ts vs : List Token}

theorem Respelled.first (h : Respelled asked ((t :: ts).map Token.text) (vs.map Token.text)) :
    ∃ v behind, vs = v :: behind ∧
      ((asked.map Role.operand).getD (Role.first t.text)).Agrees t.text v.text ∧
      Respelled (Role.next asked t.text) (ts.map Token.text) (behind.map Token.text) := by
  obtain ⟨other, others, hvs, hagrees, hrest⟩ := Respelled.cons_inv h
  obtain ⟨v, behind, rfl, rfl, rfl⟩ := List.map_eq_cons_iff.mp hvs
  exact ⟨v, behind, rfl, hagrees, hrest⟩

theorem Respelled.eq_nil (h : Respelled asked [] (vs.map Token.text)) : vs = [] := by
  rw [Respelled, Role.ofWords, List.zip_nil_left, List.forall₂_nil_left_iff] at h
  exact List.map_eq_nil_iff.mp h

theorem Respelled.alone (h : Respelled none ([t].map Token.text) (vs.map Token.text)) :
    ∃ v, vs = [v] ∧ (Role.first t.text).Agrees t.text v.text := by
  obtain ⟨v, behind, rfl, hagrees, hrest⟩ := h.first
  rw [hrest.eq_nil]
  exact ⟨v, rfl, hagrees⟩

theorem Respelled.pair {arg : Token} {o : Operand} (ht : Role.asked? t.text = some o)
    (h : Respelled none ([t, arg].map Token.text) (vs.map Token.text)) :
    ∃ v arg', vs = [v, arg'] ∧ Recased t.text v.text ∧
      (Role.operand o).Agrees arg.text arg'.text := by
  obtain ⟨v, behind, rfl, hagrees, hrest⟩ := h.first
  rw [show Role.next none t.text = some o from ht] at hrest
  obtain ⟨arg', behind, rfl, harg, hrest⟩ := hrest.first
  rw [hrest.eq_nil]
  exact ⟨v, arg', rfl, hagrees.recased, harg⟩

theorem Written.respelled {ws : List Token} {s : Statement} (h : Written ws s)
    (hvs : Respelled none (ws.map Token.text) (vs.map Token.text)) :
    ∃ s', Written vs s' ∧ s'.bare = s.bare := by
  -- Only the words of labels are looked at as they are.
  cases h with
  | @label t name hd hn =>
    obtain ⟨v, rfl, hv⟩ := hvs.alone
    have hfirst : Role.first t.text = .definition := by
      rw [Defines] at hd
      simp [Role.first, hd]
    rw [hfirst] at hv
    have hword : Defines v.text name := (show v.text = t.text from hv).trans hd
    exact ⟨_, .label hword hn, rfl⟩
  | plain ht =>
    obtain ⟨v, rfl, hv⟩ := hvs.alone
    exact ⟨_, .plain (ht.recased hv.recased), rfl⟩
  | jump ht hn =>
    obtain ⟨v, arg', rfl, hv, harg⟩ := hvs.pair (Role.asked?_of_jump ht)
    rw [← show arg'.text = _ from harg] at hn ⊢
    exact ⟨_, .jump (ht.recased hv) hn, rfl⟩
  | fixed ht hb ha =>
    obtain ⟨v, arg', rfl, hv, harg⟩ := hvs.pair (Role.asked?_of_move ht)
    obtain ⟨inner', hb', hinner⟩ := hb.recased harg
    exact ⟨_, .fixed (ht.recased hv) hb' (ha.recased hinner), rfl⟩
  | held ht hb hr =>
    obtain ⟨v, arg', rfl, hv, harg⟩ := hvs.pair (Role.asked?_of_move ht)
    obtain ⟨inner', hb', hinner⟩ := hb.recased harg
    exact ⟨_, .held (ht.recased hv) hb' (hr.recased hinner), rfl⟩
  | reg ht hr =>
    obtain ⟨v, arg', rfl, hv, harg⟩ := hvs.pair (Role.asked?_of_move ht)
    exact ⟨_, .reg (ht.recased hv) (hr.recased harg), rfl⟩
  | imm ht hw =>
    obtain ⟨v, arg', rfl, hv, harg⟩ := hvs.pair (Role.asked?_of_move ht)
    exact ⟨_, .imm (ht.recased hv) (hw.recased harg), rfl⟩

theorem Respelled.append_inv {ws : List Token}
    (h : Respelled asked ((ws ++ ts).map Token.text) (vs.map Token.text)) :
    ∃ front behind, vs = front ++ behind ∧
      Respelled asked (ws.map Token.text) (front.map Token.text) ∧
      Respelled ((ws.map Token.text).foldl Role.next asked) (ts.map Token.text)
        (behind.map Token.text) := by
  induction ws generalizing asked vs with
  | nil => exact ⟨[], vs, rfl, .nil, h⟩
  | cons w ws ih =>
    obtain ⟨v, behind, rfl, hagrees, hrest⟩ := Respelled.first h
    obtain ⟨front, behind, rfl, hfront, hbehind⟩ := ih hrest
    exact ⟨v :: front, behind, rfl, .cons hagrees hfront, hbehind⟩

/-- A line is divided as before. Behind each statement no operand is asked for, so the next one is
respelled by itself. -/
theorem Split.respelled {line : List Token} {parts : List (List Token × Statement)}
    (h : Split line parts) (hvs : Respelled none (line.map Token.text) (vs.map Token.text)) :
    ∃ parts', Split vs parts' ∧
      parts'.map (Statement.bare ∘ Prod.snd) = parts.map (Statement.bare ∘ Prod.snd) := by
  induction parts generalizing line vs with
  | nil =>
    obtain rfl : line = [] := h.words.symm
    rw [hvs.eq_nil]
    exact ⟨[], .nil, rfl⟩
  | cons p parts ih =>
    obtain ⟨hp, rest, rfl, hrest⟩ := h.inversion
    obtain ⟨front, behind, rfl, hfront, hbehind⟩ := hvs.append_inv
    rw [← pending, hp.pending_eq] at hbehind
    obtain ⟨s, hs, hbare⟩ := hp.respelled hfront
    obtain ⟨parts', hparts', hbares⟩ := ih hrest hbehind
    refine ⟨(front, s) :: parts', hparts'.cons hs, ?_⟩
    rw [List.map_cons, List.map_cons, hbares]
    exact congrArg (· :: _) hbare

/-- The same for a program on several lines. How its words are distributed over lines does not
matter, as long as each operand stays with its mnemonic. -/
theorem Reads.respelled {lines others : List (List Token)} {ss : List Statement}
    (h : Reads lines ss)
    (hwords : Respelled none (lines.flatten.map Token.text) (others.flatten.map Token.text))
    (hne : ∀ line ∈ others, line ≠ [])
    (hline : OperandsInLine (others.map (List.map Token.text))) :
    ∃ ss', Reads others ss' ∧ ss'.map Statement.bare = ss.map Statement.bare := by
  obtain ⟨parts, hparts, rfl⟩ := h.flatten
  obtain ⟨parts', hparts', hbare⟩ := hparts.respelled hwords
  refine ⟨_, reads_of_flatten hparts' ((operandsInLine_iff hne).mp hline), ?_⟩
  rw [List.map_map, List.map_map, hbare]

end Reading

/-- A text with the words of another one, up to case where that has no meaning, each operand on the
line of its mnemonic. -/
structure Restates (s t : String) : Prop where
  words : Respelled none (wordLines s.toList).flatten (wordLines t.toList).flatten
  operands : OperandsInLine (wordLines t.toList)

instance (s t : String) : Decidable (Restates s t) :=
  decidable_of_iff (Respelled none (wordLines s.toList).flatten (wordLines t.toList).flatten ∧
    OperandsInLine (wordLines t.toList)) ⟨fun h => ⟨h.1, h.2⟩, fun h => ⟨h.words, h.operands⟩⟩

section Texts

variable {s t : String} {code : Code}

theorem ne_nil_of_mem_lines {cs : List Char} {line : List Token} (h : line ∈ Token.lines cs) :
    line ≠ [] := by
  simpa using (List.mem_filter.mp h).2

theorem assemble_of_restates (h : assemble s = .ok code) (ht : Restates s t) :
    assemble t = .ok code := by
  obtain ⟨hwords, hoperands⟩ := ht
  obtain ⟨ss, hss, hcode⟩ := reads_of_assemble h
  rw [← wordLines_eq, ← wordLines_eq, ← List.map_flatten, ← List.map_flatten] at hwords
  rw [← wordLines_eq] at hoperands
  obtain ⟨ts, hts, hbare⟩ := hss.respelled hwords (fun _ => ne_nil_of_mem_lines) hoperands
  rw [assemble_of_reads hts]
  exact Statement.assembleAll_of_bare hbare hcode

theorem restates_of_wordLines (h : assemble s = .ok code)
    (hlines : wordLines t.toList = wordLines s.toList) : Restates s t := by
  constructor
  · rw [hlines]
    exact .refl none _
  · obtain ⟨ss, hss, -⟩ := reads_of_assemble h
    rw [hlines, ← wordLines_eq]
    exact hss.operandsInLine fun _ => ne_nil_of_mem_lines

theorem operandsInLine_single (ws : List (List Char)) :
    OperandsInLine ([ws].filter fun ws => !ws.isEmpty) := by
  cases ws with
  | nil => decide
  | cons w ws =>
    intro n hn
    obtain rfl : n = 0 := by simpa using hn
    simp [Role.ofWords, Role.isOperand_first]

theorem flatten_single (ws : List (List Char)) :
    ([ws].filter fun ws => !ws.isEmpty).flatten = ws := by
  cases ws with
  | nil => rfl
  | cons w ws => simp

theorem restates_oneLine (s : String) {sep : List Char} (hne : sep ≠ [])
    (hsep : ∀ c ∈ sep, Part.separates c = true) :
    Restates s (String.ofList (sep.intercalate (wordLines s.toList).flatten)) := by
  have hwords : ∀ w ∈ (wordLines s.toList).flatten, WholeWord w := by
    intro w hw
    obtain ⟨ws, hws, hmem⟩ := List.mem_flatten.mp hw
    exact wholeWord_of_mem_wordLines hws hmem
  have hlines := wordLines_intercalate hne hsep hwords
  constructor
  · rw [String.toList_ofList, hlines, flatten_single]
    exact .refl none _
  · rw [String.toList_ofList, hlines]
    exact operandsInLine_single _

end Texts

/-- How a program is presented does not reach its code. An accepted program may have other lines, as
long as each operand stays on the line of its mnemonic, other separators, comments and blank lines,
and its mnemonics and the operands of `push` and `pop` may be in another case. In particular all words
may come on one line, line breaks may have a carriage return, and comments may come and go. -/
theorem presentation_free {s : String} {code : Code} (h : assemble s = .ok code) :
    (∀ t, Restates s t → assemble t = .ok code) ∧
      (∀ sep : List Char, sep ≠ [] → (∀ c ∈ sep, Part.separates c = true) →
        assemble (String.ofList (sep.intercalate (wordLines s.toList).flatten)) = .ok code) ∧
      assemble (String.ofList (s.toList.flatMap crlf)) = .ok code ∧
      ∀ t : String, List.Forall₂ SameBody (Text.pieces Part.breaks s.toList)
        (Text.pieces Part.breaks t.toList) → assemble t = .ok code := by
  have hbody : ∀ t : String, List.Forall₂ SameBody (Text.pieces Part.breaks s.toList)
      (Text.pieces Part.breaks t.toList) → assemble t = .ok code := by
    intro t ht
    exact assemble_of_restates h (restates_of_wordLines h (wordLines_of_sameBody ht))
  refine ⟨fun t => assemble_of_restates h, ?_, ?_, hbody⟩
  · intro sep hne hsep
    exact assemble_of_restates h (restates_oneLine s hne hsep)
  · apply hbody
    rw [String.toList_ofList]
    exact sameBody_crlf s.toList

/-- A jump forward, one back, and operands of both kinds, on other lines, with other separators and
comments, in another case. A label keeps its case. -/
theorem presentation_free_relaid :
    let s := "jmp Over\nback:\npush 1.5e2\npop [AX] ; keep\nOver: push [12] jmp back\n"
    let t := "; again\nJMP Over\tback:\r\nPush 1.5E2, POP [ax]\n\nOver:\nPUSH [12]\njMp,back;"
    let code : Code := #[20, 16, 0, 0, 0, 14, 0, 0, 0, 0, 0, 192, 98, 64, 19, 0, 16, 12, 0, 0, 0, 20,
      240, 255, 255, 255]
    assemble s = .ok code ∧ assemble t = .ok code ∧
      assemble (String.ofList (s.toList.flatMap crlf)) = .ok code ∧
      assemble (String.ofList ([',', ' '].intercalate (wordLines s.toList).flatten)) = .ok code := by
  intro s t code
  have hs : assemble s = .ok code := by decide +kernel
  obtain ⟨hrestates, hone, hcrlf, -⟩ := presentation_free hs
  exact ⟨hs, hrestates t (by decide +kernel), hcrlf, hone [',', ' '] (by simp) (by simp [Part.separates])⟩

end StackMachine
