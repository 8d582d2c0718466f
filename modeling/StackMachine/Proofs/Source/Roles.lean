import StackMachine.Proofs.Source.Case
import StackMachine.Proofs.Source.Program

/-!
# StackMachine.Proofs.Source.Roles

What the words of a program are there for, read off the words alone.

* `Role.ofWords`: the role of each word, given what was asked for in front of the first one.
* `Respelled`: the same words, in another case where case has no meaning.
* `OperandsInLine`: no line begins with an operand.
* `Written.pending_eq`, `Split.pending_eq`: behind a statement no operand is missing.
* `Split.cut`: a program can be cut wherever none is missing.
* `reads_of_flatten`, `Reads.operandsInLine`: so statements can be distributed over lines in every
  way that leaves each operand on the line of its mnemonic.
-/

namespace StackMachine

/-- What a mnemonic asks for: the label to jump to, or the place to move a number to or from. -/
inductive Operand where
  | target
  | place

inductive Role where
  | definition
  | mnemonic
  | operand (o : Operand)

namespace Role

/-- What a word asks for if a statement begins with it. -/
def asked? (word : List Char) : Option Operand :=
  let mnemonic := word.map Char.toLower
  if (Jump.ofMnemonic? mnemonic).isSome then some .target
  else if (Move.ofMnemonic? mnemonic).isSome then some .place
  else none

/-- What a word is if a statement begins with it. -/
def first (word : List Char) : Role :=
  if word.getLast? = some ':' then definition else mnemonic

/-- What is asked for behind a word, if `asked` was in front of it. An operand asks for nothing. -/
def next (asked : Option Operand) (word : List Char) : Option Operand :=
  if asked.isSome then none else asked? word

def isOperand : Role → Bool
  | definition => false
  | mnemonic => false
  | operand _ => true

/-- The role of each word, if `asked` is in front of the first one. -/
def ofWords (asked : Option Operand) : List (List Char) → List Role
  | [] => []
  | word :: words => (asked.map operand).getD (first word) :: ofWords (next asked word) words

/-- Whether a word may be written so where another one stood. Labels are what they are; mnemonics
and the operands of moves have no case. -/
def Agrees : Role → List Char → List Char → Prop
  | definition, word, other => other = word
  | mnemonic, word, other => Recased word other
  | operand .target, word, other => other = word
  | operand .place, word, other => Recased word other

instance (role : Role) (word other : List Char) : Decidable (role.Agrees word other) :=
  match role with
  | definition => inferInstanceAs (Decidable (other = word))
  | mnemonic => inferInstanceAs (Decidable (other.map Char.toLower = word.map Char.toLower))
  | operand .target => inferInstanceAs (Decidable (other = word))
  | operand .place => inferInstanceAs (Decidable (other.map Char.toLower = word.map Char.toLower))

end Role

/-- Words that agree with others, one by one, in the roles that those have. -/
def Respelled (asked : Option Operand) (words others : List (List Char)) : Prop :=
  List.Forall₂ (fun p other => p.1.Agrees p.2 other) ((Role.ofWords asked words).zip words) others

/-- Every operand stands on the same line as its mnemonic, that is on none as the first word. -/
def OperandsInLine (lines : List (List (List Char))) : Prop :=
  ∀ n < lines.length, ((Role.ofWords none lines.flatten)[(lines.take n).flatten.length]?).all
    fun role => !role.isOperand

instance (asked : Option Operand) (words others : List (List Char)) :
    Decidable (Respelled asked words others) :=
  inferInstanceAs (Decidable (List.Forall₂ _ _ _))

instance (lines : List (List (List Char))) : Decidable (OperandsInLine lines) :=
  inferInstanceAs (Decidable (∀ n < lines.length, _))

namespace Role

variable {word name : List Char}

theorem asked?_of_jump {k : Jump} (h : Spells word k.mnemonic.toList) :
    asked? word = some .target := by
  rw [Spells] at h
  simp [asked?, h, Jump.ofMnemonic?_eq_some_iff.mpr rfl]

theorem asked?_of_move {m : Move} (h : Spells word m.mnemonic.toList) :
    asked? word = some .place := by
  rw [Spells] at h
  simp [asked?, h, Jump.ofMnemonic?_move, Move.ofMnemonic?_eq_some_iff.mpr rfl]

theorem asked?_eq_none (hjump : ∀ k : Jump, ¬ Spells word k.mnemonic.toList)
    (hmove : ∀ m : Move, ¬ Spells word m.mnemonic.toList) : asked? word = none := by
  have hj : Jump.ofMnemonic? (word.map Char.toLower) = none :=
    Option.eq_none_iff_forall_ne_some.mpr fun k hk => hjump k (Jump.ofMnemonic?_eq_some_iff.mp hk)
  have hm : Move.ofMnemonic? (word.map Char.toLower) = none :=
    Option.eq_none_iff_forall_ne_some.mpr fun m hm => hmove m (Move.ofMnemonic?_eq_some_iff.mp hm)
  simp [asked?, hj, hm]

theorem asked?_of_defines (h : Defines word name) : asked? word = none :=
  asked?_eq_none (fun k hk => not_defines_of_letters hk k.letters name h)
    (fun m hm => not_defines_of_letters hm m.letters name h)

theorem asked?_of_plain {op : Plain} (h : Spells word op.mnemonic.toList) :
    asked? word = none := by
  rw [Spells] at h
  apply asked?_eq_none
  · intro k hk
    have hop := Plain.ofMnemonic?_jump k
    rw [← hk, h, Plain.ofMnemonic?_eq_some_iff.mpr rfl] at hop
    cases hop
  · intro m hm
    have hop := Plain.ofMnemonic?_move m
    rw [← hm, h, Plain.ofMnemonic?_eq_some_iff.mpr rfl] at hop
    cases hop

theorem isOperand_first (word : List Char) : (first word).isOperand = false := by
  unfold first
  split
  · rfl
  · rfl

theorem getElem?_ofWords (asked : Option Operand) (before : List (List Char)) (word : List Char)
    (behind : List (List Char)) :
    (ofWords asked (before ++ word :: behind))[before.length]? =
      some (((before.foldl next asked).map operand).getD (first word)) := by
  induction before generalizing asked with
  | nil => rfl
  | cons w before ih => exact ih (next asked w)

end Role

/-- A statement is one word that asks for nothing, or one that does and what it asks for. -/
theorem Written.cases_words {ws : List Token} {s : Statement} (h : Written ws s) :
    (∃ t, ws = [t] ∧ Role.asked? t.text = none) ∨
      ∃ t arg o, ws = [t, arg] ∧ Role.asked? t.text = some o := by
  cases h with
  | label hd => exact .inl ⟨_, rfl, Role.asked?_of_defines hd⟩
  | plain ht => exact .inl ⟨_, rfl, Role.asked?_of_plain ht⟩
  | jump ht => exact .inr ⟨_, _, _, rfl, Role.asked?_of_jump ht⟩
  | fixed ht => exact .inr ⟨_, _, _, rfl, Role.asked?_of_move ht⟩
  | held ht => exact .inr ⟨_, _, _, rfl, Role.asked?_of_move ht⟩
  | reg ht => exact .inr ⟨_, _, _, rfl, Role.asked?_of_move ht⟩
  | imm ht => exact .inr ⟨_, _, _, rfl, Role.asked?_of_move ht⟩

def pending (ws : List Token) : Option Operand := (ws.map Token.text).foldl Role.next none

theorem pending_append {ws vs : List Token} (h : pending ws = none) :
    pending (ws ++ vs) = pending vs := by
  rw [pending, List.map_append, List.foldl_append, ← pending, h, ← pending]

theorem pending_flatten {lines : List (List Token)} (h : ∀ line ∈ lines, pending line = none) :
    pending lines.flatten = none := by
  induction lines with
  | nil => rfl
  | cons line lines ih =>
    rw [List.flatten_cons, pending_append (h line List.mem_cons_self)]
    exact ih fun l hl => h l (List.mem_cons_of_mem line hl)

theorem Written.pending_eq {ws : List Token} {s : Statement} (h : Written ws s) :
    pending ws = none := by
  rcases h.cases_words with ⟨t, rfl, ht⟩ | ⟨t, arg, o, rfl, ht⟩
  · exact ht
  · simp [pending, Role.next, ht]

theorem Written.whole {start rest : List Token} {s : Statement} (h : Written (start ++ rest) s)
    (hne : start ≠ []) (hpending : pending start = none) : rest = [] := by
  obtain ⟨w, ws, rfl⟩ := List.exists_cons_of_ne_nil hne
  rcases h.cases_words with ⟨t, heq, -⟩ | ⟨t, arg, o, heq, ht⟩
  · exact (List.append_eq_nil_iff.mp (List.cons.inj heq).2).2
  · obtain ⟨rfl, hrest⟩ := List.cons.inj heq
    cases ws with
    | nil =>
      simp [pending, Role.next, ht] at hpending
    | cons v vs => exact (List.append_eq_nil_iff.mp (List.cons.inj hrest).2).2

section Lines

variable {line rest : List Token} {parts : List (List Token × Statement)}
  {lines : List (List Token)} {ss : List Statement}

theorem Split.pending_eq (h : Split line parts) : pending line = none := by
  rw [← h.words]
  apply pending_flatten
  intro ws hws
  obtain ⟨p, hp, rfl⟩ := List.mem_map.mp hws
  exact (h.written p hp).pending_eq

/-- A program is cut in two where nothing is asked for. -/
theorem Split.cut (h : Split (line ++ rest) parts) (hpending : pending line = none) :
    ∃ first second, parts = first ++ second ∧ Split line first ∧ Split rest second := by
  induction parts generalizing line with
  | nil =>
    obtain ⟨rfl, rfl⟩ := List.append_eq_nil_iff.mp h.words.symm
    exact ⟨[], [], rfl, .nil, .nil⟩
  | cons p parts ih =>
    by_cases hne : line = []
    · subst hne
      exact ⟨[], p :: parts, rfl, .nil, h⟩
    obtain ⟨hp, tail, heq, htail⟩ := h.inversion
    have key : ∃ behind, line = p.1 ++ behind ∧ tail = behind ++ rest := by
      -- The first statement does not reach over the place, or it would be cut there itself.
      rcases List.append_eq_append_iff.mp heq with ⟨x, hx, hrest⟩ | h
      · rw [hx] at hp
        obtain rfl := hp.whole hne hpending
        exact ⟨[], by simpa using hx.symm, hrest.symm⟩
      · exact h
    obtain ⟨behind, rfl, rfl⟩ := key
    rw [pending_append hp.pending_eq] at hpending
    obtain ⟨first, second, rfl, hfirst, hsecond⟩ := ih htail hpending
    exact ⟨p :: first, second, rfl, hfirst.cons hp, hsecond⟩

theorem operandsInLine_iff (hne : ∀ line ∈ lines, line ≠ []) :
    OperandsInLine (lines.map (List.map Token.text)) ↔
      ∀ n < lines.length, pending (lines.take n).flatten = none := by
  have hrole : ∀ n < lines.length, ∃ word,
      (Role.ofWords none (lines.map (List.map Token.text)).flatten)[
          ((lines.map (List.map Token.text)).take n).flatten.length]? =
        some (((pending (lines.take n).flatten).map .operand).getD (Role.first word)) := by
    intro n hn
    -- The words above the line come before its first one, and none of them is left out.
    obtain ⟨t, ts, hline⟩ := List.exists_cons_of_ne_nil (hne lines[n] (List.getElem_mem hn))
    have hwhole : lines.flatten =
        (lines.take n).flatten ++ t :: (ts ++ (lines.drop (n + 1)).flatten) := by
      rw [← List.cons_append, ← hline, ← List.flatten_cons, List.getElem_cons_drop,
        ← List.flatten_append, List.take_append_drop]
    refine ⟨t.text, ?_⟩
    rw [← List.map_flatten, ← List.map_take, ← List.map_flatten, hwhole, List.map_append,
      List.map_cons, Role.getElem?_ofWords]
    rfl
  unfold OperandsInLine
  rw [List.length_map]
  refine forall₂_congr fun n hn => ?_
  obtain ⟨word, hword⟩ := hrole n hn
  rw [hword]
  cases pending (lines.take n).flatten with
  | none => simp [Role.isOperand_first]
  | some o => simp [Role.isOperand]

/-- Statements that stand one after another make up a program on any lines, if no operand comes on a
line behind its mnemonic. -/
theorem reads_of_flatten (h : Split lines.flatten parts)
    (hpending : ∀ n < lines.length, pending (lines.take n).flatten = none) :
    Reads lines (parts.map Prod.snd) := by
  induction lines generalizing parts with
  | nil =>
    rw [h.unique .nil]
    exact .nil
  | cons line lines ih =>
    have hline : pending line = none := by
      cases lines with
      | nil => simpa using h.pending_eq
      | cons below lines => simpa using hpending 1 (by simp)
    obtain ⟨first, second, rfl, hfirst, hsecond⟩ := h.cut hline
    rw [List.map_append]
    refine .cons hfirst (ih hsecond ?_)
    intro n hn
    have hbelow := hpending (n + 1) (Nat.succ_lt_succ hn)
    rwa [List.take_succ_cons, List.flatten_cons, pending_append hline] at hbelow

theorem Reads.operandsInLine (h : Reads lines ss) (hne : ∀ line ∈ lines, line ≠ []) :
    OperandsInLine (lines.map (List.map Token.text)) := by
  rw [operandsInLine_iff hne]
  intro n _
  apply pending_flatten
  intro line hline
  obtain ⟨parts, hparts⟩ := h.split (List.mem_of_mem_take hline)
  exact hparts.pending_eq

end Lines

section Respelled

variable {asked : Option Operand} {words others : List (List Char)}

theorem Role.Agrees.refl (role : Role) (word : List Char) : role.Agrees word word := by
  rcases role with _ | _ | _ | _
  · rfl
  · exact Recased.refl word
  · rfl
  · exact Recased.refl word

theorem Role.Agrees.recased {role : Role} {word other : List Char} (h : role.Agrees word other) :
    Recased word other := by
  rcases role with _ | _ | _ | _
  · exact h ▸ Recased.refl word
  · exact h
  · exact h ▸ Recased.refl word
  · exact h

theorem Respelled.refl (asked : Option Operand) (words : List (List Char)) :
    Respelled asked words words := by
  induction words generalizing asked with
  | nil => exact .nil
  | cons word words ih => exact .cons (Role.Agrees.refl _ word) (ih (Role.next asked word))

theorem Respelled.cons_inv {word : List Char} (h : Respelled asked (word :: words) others) :
    ∃ other behind, others = other :: behind ∧
      ((asked.map Role.operand).getD (Role.first word)).Agrees word other ∧
      Respelled (Role.next asked word) words behind := by
  cases h with
  | cons hword hwords => exact ⟨_, _, rfl, hword, hwords⟩

end Respelled

end StackMachine
