import StackMachine.Proofs.Source.Grammar

/-!
# StackMachine.Proofs.Source.Reading

The reader of lines follows the grammar.

* `Statement.ofLine_written`: what is written is read, whatever follows it on the line.
* `Statement.ofLine_malformed`: what begins no statement is refused, with the error that it shows.
* `written_or_malformed`: words begin a statement or they do not.
* `split_of_ofLine`: statements that were read stand there, one after another.
* `Split.unique`: a line is divided in one way at most.
-/

namespace StackMachine

section Words

variable {word name inner : List Char}

theorem Spells.toLower_mem (h : Spells word name) {c : Char} (hc : c ∈ word) :
    c.toLower ∈ name := by
  rw [← h]
  exact List.mem_map_of_mem hc

theorem not_mem_of_letters (h : Spells word name) (hname : name.all Char.isAlpha = true) {c : Char}
    (hc : Decimal.isDigit c = true ∨ c ∈ ['-', '+', '.', '[', ':']) : c ∉ word := by
  intro hmem
  have hother : c.toLower = c ∧ c.isAlpha = false := by
    rcases hc with hdigit | hsign
    · exact ⟨Decimal.toLower_of_isDigit hdigit, isAlpha_of_isDigit hdigit⟩
    · simp only [List.mem_cons, List.not_mem_nil, or_false] at hsign
      rcases hsign with rfl | rfl | rfl | rfl | rfl <;> exact ⟨rfl, rfl⟩
  obtain ⟨hlower, halpha⟩ := hother
  have hletter := List.all_eq_true.mp hname c (hlower ▸ h.toLower_mem hmem)
  rw [halpha] at hletter
  cases hletter

theorem not_defines_of_letters (h : Spells word name) (hname : name.all Char.isAlpha = true)
    (inner : List Char) : ¬ Defines word inner := by
  rintro rfl
  exact not_mem_of_letters h hname (c := ':') (.inr (by decide)) (by simp)

theorem Plain.letters (op : Plain) : op.mnemonic.toList.all Char.isAlpha = true := by
  rcases op with _ | _ | a | f | _ | _ | _
  · rfl
  · rfl
  · cases a <;> rfl
  · cases f <;> rfl
  · rfl
  · rfl
  · rfl

theorem Jump.letters (k : Jump) : k.mnemonic.toList.all Char.isAlpha = true := by
  rcases k with _ | c | _
  · rfl
  · cases c <;> rfl
  · rfl

theorem Move.letters (m : Move) : m.mnemonic.toList.all Char.isAlpha = true := by
  cases m <;> rfl

theorem Reg.letters (r : Reg) : r.name.all Char.isAlpha = true := by
  cases r <;> rfl

theorem not_bracketed_of_reg {r : Reg} (h : Spells word r.name) : ¬ Bracketed word inner := by
  rintro rfl
  exact not_mem_of_letters h r.letters (c := '[') (.inr (by decide)) (by simp)

theorem not_numeric_of_reg {r : Reg} (h : Spells word r.name) : ¬ Numeric word := by
  rintro ⟨hc⟩
  rename_i c cs
  refine not_mem_of_letters h r.letters (c := c) ?_ List.mem_cons_self
  rcases hc with hdigit | rfl | rfl
  · exact .inl (Decimal.isDigit_iff.mpr hdigit)
  · exact .inr (by decide)
  · exact .inr (by decide)

theorem ne_nil_of_reg {r : Reg} (h : Spells word r.name) : word ≠ [] := by
  rintro rfl
  cases r <;> cases h

theorem not_literal_of_reg {r : Reg} (h : Spells word r.name) (w : Word) :
    ¬ Decimal.Literal word w := by
  rintro ⟨hsign, hbits⟩
  cases hsign with
  | minus => exact not_mem_of_letters h r.letters (c := '-') (.inr (by decide)) List.mem_cons_self
  | plus => exact not_mem_of_letters h r.letters (c := '+') (.inr (by decide)) List.mem_cons_self
  | none =>
    cases hbits with
    | infinity hname =>
      rw [Spells] at h
      rw [h] at hname
      revert hname
      cases r <;> decide
    | nan hname =>
      rw [Spells] at h
      rw [h] at hname
      revert hname
      cases r <;> decide
    | number hx =>
      obtain ⟨c, hc, hfirst⟩ := Decimal.head?_of_number hx
      refine not_mem_of_letters h r.letters (c := c) ?_ (List.mem_of_head? hc)
      rcases hfirst with hdigit | rfl
      · exact .inl hdigit
      · exact .inr (by decide)

theorem not_bracketed_of_literal {w : Word} (h : Decimal.Literal word w) :
    ¬ Bracketed word inner := by
  rintro rfl
  obtain ⟨hsign, hbits⟩ := h
  cases hsign with
  | none =>
    cases hbits with
    | infinity hname => rcases hname with hname | hname <;> cases hname
    | nan hname => cases hname
    | number hx =>
      obtain ⟨c, hc, hfirst⟩ := Decimal.head?_of_number hx
      cases hc
      revert hfirst
      decide

theorem numeric_of_integer {n : Int} (h : Decimal.Integer word n) : Numeric word := by
  obtain ⟨hsign, hne, hdigits⟩ := h
  cases hsign with
  | minus => exact .mk (.inr (.inl rfl))
  | plus => exact .mk (.inr (.inr rfl))
  | none =>
    obtain ⟨d, ds, rfl⟩ := List.exists_cons_of_ne_nil hne
    exact .mk (.inl (hdigits d List.mem_cons_self))

end Words

section First

variable {t : Token} {name : List Char}

theorem Form.ofWord_label (h : Defines t.text name) (hname : Name name) :
    ofWord t = .ok (.whole (.label ⟨String.ofList name, ⟨t.start, Utf8.size name⟩⟩)) := by
  simp only [ofWord, stripLast?_eq_some_iff.mpr h, labelDefinition, isLabelName_iff.mpr hname]
  rfl

theorem Form.ofWord_invalid (h : Defines t.text name) (hname : ¬ Name name) :
    ofWord t = .error ⟨.invalidLabel (String.ofList name), t.span⟩ := by
  simp only [ofWord, stripLast?_eq_some_iff.mpr h, labelDefinition, isLabelName_iff, hname]
  rfl

theorem Form.ofWord_mnemonic (h : ∀ name, ¬ Defines t.text name) :
    ofWord t = match Plain.ofMnemonic? (t.text.map Char.toLower),
        Jump.ofMnemonic? (t.text.map Char.toLower), Move.ofMnemonic? (t.text.map Char.toLower) with
      | some op, _, _ => .ok (whole (.instr (.plain op)))
      | none, some k, _ => .ok (jump k)
      | none, none, some m => .ok (move m)
      | none, none, none => .error ⟨.unknownMnemonic (String.ofList t.text), t.span⟩ := by
  have hstrip : stripLast? ':' t.text = none := by
    cases hs : stripLast? ':' t.text with
    | none => rfl
    | some name => exact absurd (stripLast?_eq_some_iff.mp hs) (h name)
  simp only [ofWord, hstrip]
  rfl

theorem Form.ofWord_plain {op : Plain} (h : Spells t.text op.mnemonic.toList) :
    ofWord t = .ok (.whole (.instr (.plain op))) := by
  rw [ofWord_mnemonic (not_defines_of_letters h op.letters), Plain.ofMnemonic?_eq_some_iff.mpr h]

theorem Form.ofWord_jump {k : Jump} (h : Spells t.text k.mnemonic.toList) :
    ofWord t = .ok (.jump k) := by
  rw [ofWord_mnemonic (not_defines_of_letters h k.letters), Jump.ofMnemonic?_eq_some_iff.mpr h, h,
    Plain.ofMnemonic?_jump]

theorem Form.ofWord_move {m : Move} (h : Spells t.text m.mnemonic.toList) :
    ofWord t = .ok (.move m) := by
  rw [ofWord_mnemonic (not_defines_of_letters h m.letters), Move.ofMnemonic?_eq_some_iff.mpr h, h,
    Plain.ofMnemonic?_move, Jump.ofMnemonic?_move]

theorem Form.ofWord_unknown (hlabel : ∀ name, ¬ Defines t.text name)
    (hplain : ∀ op : Plain, ¬ Spells t.text op.mnemonic.toList)
    (hjump : ∀ k : Jump, ¬ Spells t.text k.mnemonic.toList)
    (hmove : ∀ m : Move, ¬ Spells t.text m.mnemonic.toList) :
    ofWord t = .error ⟨.unknownMnemonic (String.ofList t.text), t.span⟩ := by
  have hp : Plain.ofMnemonic? (t.text.map Char.toLower) = none :=
    Option.eq_none_iff_forall_ne_some.mpr fun op h => hplain op (Plain.ofMnemonic?_eq_some_iff.mp h)
  have hj : Jump.ofMnemonic? (t.text.map Char.toLower) = none :=
    Option.eq_none_iff_forall_ne_some.mpr fun k h => hjump k (Jump.ofMnemonic?_eq_some_iff.mp h)
  have hm : Move.ofMnemonic? (t.text.map Char.toLower) = none :=
    Option.eq_none_iff_forall_ne_some.mpr fun m h => hmove m (Move.ofMnemonic?_eq_some_iff.mp h)
  rw [ofWord_mnemonic hlabel, hp, hj, hm]

end First

section Operand

variable {arg : Token} {m : Move} {inner : List Char} {r : Reg}

theorem jumpOperand_name {k : Jump} (h : Name arg.text) :
    jumpOperand k arg = .ok (.instr (.jump k ⟨String.ofList arg.text, arg.span⟩)) := by
  simp only [jumpOperand, isLabelName_iff.mpr h]
  rfl

theorem jumpOperand_invalid {k : Jump} (h : ¬ Name arg.text) :
    jumpOperand k arg = .error ⟨.invalidLabel (String.ofList arg.text), arg.span⟩ := by
  simp only [jumpOperand, isLabelName_iff, h]
  rfl

theorem registerAt_name {span : Span} (h : Spells inner r.name) :
    registerAt m inner span = .ok r := by
  simp only [registerAt, ofName?_eq_some_iff.mpr h]

theorem registerAt_invalid {span : Span} (h : ∀ r : Reg, ¬ Spells inner r.name) :
    registerAt m inner span = .error ⟨.invalidRegister m.mnemonic (String.ofList inner), span⟩ := by
  have hname : Reg.ofName? inner = none :=
    Option.eq_none_iff_forall_ne_some.mpr fun r hr => h r (ofName?_eq_some_iff.mp hr)
  simp only [registerAt, hname]

theorem moveOperand_bracketed (h : Bracketed arg.text inner) :
    moveOperand m arg = ramOperand m arg inner := by
  simp only [moveOperand, bracketed?_eq_some_iff.mpr h]

theorem bracketed?_eq_none (h : ∀ inner, ¬ Bracketed arg.text inner) :
    bracketed? arg.text = none :=
  Option.eq_none_iff_forall_ne_some.mpr fun inner hi => h inner (bracketed?_eq_some_iff.mp hi)

theorem moveOperand_bare (h : ∀ inner, ¬ Bracketed arg.text inner)
    (himm : immediate? m arg.text = none) :
    moveOperand m arg = (registerAt m arg.text arg.span).map fun r => .instr (.reg m r) := by
  simp only [moveOperand, bracketed?_eq_none h, himm]

theorem immediate?_eq_some_iff {cs : List Char} {w : Word} :
    immediate? m cs = some w ↔ m = .push ∧ Decimal.Literal cs w := by
  cases m with
  | push => simp [immediate?, Decimal.literal?_eq_some_iff]
  | pop => simp [immediate?]

theorem ramOperand_numeric (h : Numeric inner) :
    ramOperand m arg inner = match address? inner with
      | some a => .ok (.instr (.fixed m a))
      | none => .error ⟨.invalidAddress m.mnemonic (String.ofList inner),
          ⟨arg.start + 1, Utf8.size inner⟩⟩ := by
  have hne : inner.isEmpty = false := by
    cases h
    rfl
  simp only [ramOperand, hne, looksNumeric_iff.mpr h]
  rfl

theorem ramOperand_name (hne : inner ≠ []) (h : ¬ Numeric inner) :
    ramOperand m arg inner =
      (registerAt m inner ⟨arg.start + 1, Utf8.size inner⟩).map fun r => .instr (.held m r) := by
  have hempty : ¬ inner.isEmpty = true := by
    rwa [List.isEmpty_iff]
  simp only [ramOperand, looksNumeric_iff, hempty, h]
  rfl

theorem moveOperand_fixed {a : Int32} (h : Bracketed arg.text inner) (ha : Address inner a) :
    moveOperand m arg = .ok (.instr (.fixed m a)) := by
  rw [moveOperand_bracketed h, ramOperand_numeric (numeric_of_integer ha.1),
    address?_eq_some_iff.mpr ha]

theorem moveOperand_held (h : Bracketed arg.text inner) (hr : Spells inner r.name) :
    moveOperand m arg = .ok (.instr (.held m r)) := by
  rw [moveOperand_bracketed h, ramOperand_name (ne_nil_of_reg hr) (not_numeric_of_reg hr),
    registerAt_name hr]
  rfl

theorem moveOperand_reg (hr : Spells arg.text r.name) :
    moveOperand m arg = .ok (.instr (.reg m r)) := by
  have himm : immediate? m arg.text = none :=
    Option.eq_none_iff_forall_ne_some.mpr fun w hw =>
      not_literal_of_reg hr w (immediate?_eq_some_iff.mp hw).2
  rw [moveOperand_bare (fun _ => not_bracketed_of_reg hr) himm, registerAt_name hr]
  rfl

theorem moveOperand_imm {w : Word} (hw : Decimal.Literal arg.text w) :
    moveOperand .push arg = .ok (.instr (.imm w)) := by
  have himm : immediate? .push arg.text = some w := immediate?_eq_some_iff.mpr ⟨rfl, hw⟩
  simp only [moveOperand, bracketed?_eq_none fun _ => not_bracketed_of_literal hw, himm]

theorem moveOperand_empty (h : Bracketed arg.text []) :
    moveOperand m arg = .error ⟨.emptyArgument m.mnemonic, arg.span⟩ := by
  rw [moveOperand_bracketed h]
  rfl

theorem moveOperand_invalidAddress (h : Bracketed arg.text inner) (hn : Numeric inner)
    (ha : ∀ a, ¬ Address inner a) :
    moveOperand m arg = .error ⟨.invalidAddress m.mnemonic (String.ofList inner),
      ⟨arg.start + 1, Utf8.size inner⟩⟩ := by
  have hnone : address? inner = none :=
    Option.eq_none_iff_forall_ne_some.mpr fun a h => ha a (address?_eq_some_iff.mp h)
  rw [moveOperand_bracketed h, ramOperand_numeric hn, hnone]

theorem moveOperand_invalidHeld (h : Bracketed arg.text inner) (hne : inner ≠ [])
    (hn : ¬ Numeric inner) (hr : ∀ r : Reg, ¬ Spells inner r.name) :
    moveOperand m arg = .error ⟨.invalidRegister m.mnemonic (String.ofList inner),
      ⟨arg.start + 1, Utf8.size inner⟩⟩ := by
  rw [moveOperand_bracketed h, ramOperand_name hne hn, registerAt_invalid hr]
  rfl

theorem moveOperand_invalidReg (h : ∀ inner, ¬ Bracketed arg.text inner)
    (hw : m = .push → ∀ w, ¬ Decimal.Literal arg.text w) (hr : ∀ r : Reg, ¬ Spells arg.text r.name) :
    moveOperand m arg = .error ⟨.invalidRegister m.mnemonic (String.ofList arg.text), arg.span⟩ := by
  have himm : immediate? m arg.text = none := by
    refine Option.eq_none_iff_forall_ne_some.mpr fun w h => ?_
    obtain ⟨hm, hl⟩ := immediate?_eq_some_iff.mp h
    exact hw hm w hl
  rw [moveOperand_bare h himm, registerAt_invalid hr]
  rfl

end Operand

namespace Statement

section Line

variable {t arg : Token} {rest : List Token} {s : Statement} {e : AssemblyError}

theorem ofLine_whole (h : Form.ofWord t = .ok (.whole s)) :
    ofLine (t :: rest) = .ok s :: ofLine rest := by
  rw [ofLine, h]

theorem ofLine_refused (h : Form.ofWord t = .error e) : ofLine (t :: rest) = [.error e] := by
  rw [ofLine, h]

theorem ofLine_jump {k : Jump} (h : Form.ofWord t = .ok (.jump k))
    (harg : jumpOperand k arg = .ok s) : ofLine (t :: arg :: rest) = .ok s :: ofLine rest := by
  rw [ofLine, h]
  simp only [harg]

theorem ofLine_jump_refused {k : Jump} (h : Form.ofWord t = .ok (.jump k))
    (harg : jumpOperand k arg = .error e) : ofLine (t :: arg :: rest) = [.error e] := by
  rw [ofLine, h]
  simp only [harg]

theorem ofLine_move {m : Move} (h : Form.ofWord t = .ok (.move m))
    (harg : moveOperand m arg = .ok s) : ofLine (t :: arg :: rest) = .ok s :: ofLine rest := by
  rw [ofLine, h]
  simp only [harg]

theorem ofLine_move_refused {m : Move} (h : Form.ofWord t = .ok (.move m))
    (harg : moveOperand m arg = .error e) : ofLine (t :: arg :: rest) = [.error e] := by
  rw [ofLine, h]
  simp only [harg]

end Line

/-- A statement is read from its words, and then whatever follows them. -/
theorem ofLine_written {ws : List Token} {s : Statement} (h : Written ws s) (rest : List Token) :
    ofLine (ws ++ rest) = .ok s :: ofLine rest := by
  cases h with
  | label hd hn => exact ofLine_whole (Form.ofWord_label hd hn)
  | plain ht => exact ofLine_whole (Form.ofWord_plain ht)
  | jump ht hn => exact ofLine_jump (Form.ofWord_jump ht) (jumpOperand_name hn)
  | fixed ht hb ha => exact ofLine_move (Form.ofWord_move ht) (moveOperand_fixed hb ha)
  | held ht hb hr => exact ofLine_move (Form.ofWord_move ht) (moveOperand_held hb hr)
  | reg ht hr => exact ofLine_move (Form.ofWord_move ht) (moveOperand_reg hr)
  | imm ht hw => exact ofLine_move (Form.ofWord_move ht) (moveOperand_imm hw)

theorem ofLine_malformed {ts : List Token} {e : AssemblyError} (h : Malformed ts e) :
    ofLine ts = [.error e] := by
  cases h with
  | label hd hn => exact ofLine_refused (Form.ofWord_invalid hd hn)
  | mnemonic hd hp hj hm => exact ofLine_refused (Form.ofWord_unknown hd hp hj hm)
  | target ht =>
    rw [ofLine, Form.ofWord_jump ht]
    rfl
  | place ht =>
    rw [ofLine, Form.ofWord_move ht]
    rfl
  | jump ht hn => exact ofLine_jump_refused (Form.ofWord_jump ht) (jumpOperand_invalid hn)
  | brackets ht hb => exact ofLine_move_refused (Form.ofWord_move ht) (moveOperand_empty hb)
  | fixed ht hb hn ha =>
    exact ofLine_move_refused (Form.ofWord_move ht) (moveOperand_invalidAddress hb hn ha)
  | held ht hb hne hn hr =>
    exact ofLine_move_refused (Form.ofWord_move ht) (moveOperand_invalidHeld hb hne hn hr)
  | reg ht hb hw hr =>
    exact ofLine_move_refused (Form.ofWord_move ht) (moveOperand_invalidReg hb hw hr)

end Statement

theorem written_or_malformed_move {t : Token} {m : Move} (ht : Spells t.text m.mnemonic.toList)
    (arg : Token) (ts : List Token) :
    (∃ s, Written [t, arg] s) ∨ ∃ e, Malformed (t :: arg :: ts) e := by
  by_cases hb : ∃ inner, Bracketed arg.text inner
  · obtain ⟨inner, hb⟩ := hb
    by_cases hne : inner = []
    · subst hne
      exact .inr ⟨_, .brackets ht hb⟩
    · by_cases hn : Numeric inner
      · by_cases ha : ∃ a, Address inner a
        · obtain ⟨a, ha⟩ := ha
          exact .inl ⟨_, .fixed ht hb ha⟩
        · exact .inr ⟨_, .fixed ht hb hn (not_exists.mp ha)⟩
      · by_cases hr : ∃ r : Reg, Spells inner r.name
        · obtain ⟨r, hr⟩ := hr
          exact .inl ⟨_, .held ht hb hr⟩
        · exact .inr ⟨_, .held ht hb hne hn (not_exists.mp hr)⟩
  · by_cases hr : ∃ r : Reg, Spells arg.text r.name
    · obtain ⟨r, hr⟩ := hr
      exact .inl ⟨_, .reg ht hr⟩
    · by_cases hw : m = .push ∧ ∃ w, Decimal.Literal arg.text w
      · obtain ⟨rfl, w, hw⟩ := hw
        exact .inl ⟨_, .imm ht hw⟩
      · refine .inr ⟨_, .reg ht (not_exists.mp hb) ?_ (not_exists.mp hr)⟩
        intro hm w hl
        exact hw ⟨hm, w, hl⟩

/-- Words begin with those of a statement, or they are malformed. -/
theorem written_or_malformed {ts : List Token} (hts : ts ≠ []) :
    (∃ ws rest s, ts = ws ++ rest ∧ Written ws s) ∨ ∃ e, Malformed ts e := by
  obtain ⟨t, ts, rfl⟩ := List.exists_cons_of_ne_nil hts
  by_cases hlabel : ∃ name, Defines t.text name
  · obtain ⟨name, hd⟩ := hlabel
    by_cases hn : Name name
    · exact .inl ⟨[t], ts, _, rfl, .label hd hn⟩
    · exact .inr ⟨_, .label hd hn⟩
  by_cases hplain : ∃ op : Plain, Spells t.text op.mnemonic.toList
  · obtain ⟨op, hop⟩ := hplain
    exact .inl ⟨[t], ts, _, rfl, .plain hop⟩
  by_cases hjump : ∃ k : Jump, Spells t.text k.mnemonic.toList
  · obtain ⟨k, hk⟩ := hjump
    cases ts with
    | nil => exact .inr ⟨_, .target hk⟩
    | cons arg ts =>
      by_cases hn : Name arg.text
      · exact .inl ⟨[t, arg], ts, _, rfl, .jump hk hn⟩
      · exact .inr ⟨_, .jump hk hn⟩
  by_cases hmove : ∃ m : Move, Spells t.text m.mnemonic.toList
  · obtain ⟨m, hm⟩ := hmove
    cases ts with
    | nil => exact .inr ⟨_, .place hm⟩
    | cons arg ts =>
      rcases written_or_malformed_move hm arg ts with ⟨s, hs⟩ | he
      · exact .inl ⟨[t, arg], ts, s, rfl, hs⟩
      · exact .inr he
  exact .inr ⟨_, .mnemonic (not_exists.mp hlabel) (not_exists.mp hplain) (not_exists.mp hjump)
    (not_exists.mp hmove)⟩

theorem Statement.ofLine_ne_nil {ts : List Token} (hts : ts ≠ []) : ofLine ts ≠ [] := by
  rcases written_or_malformed hts with ⟨ws, rest, s, rfl, hs⟩ | ⟨e, he⟩
  · rw [ofLine_written hs]
    exact List.cons_ne_nil _ _
  · rw [ofLine_malformed he]
    exact List.cons_ne_nil _ _

namespace Split

variable {line : List Token} {parts : List (List Token × Statement)}

theorem nil : Split [] [] := ⟨rfl, by nofun⟩

theorem cons {ws : List Token} {s : Statement} (hs : Written ws s) (h : Split line parts) :
    Split (ws ++ line) ((ws, s) :: parts) := by
  constructor
  · rw [List.map_cons, List.flatten_cons, h.words]
  · intro p hp
    rcases List.mem_cons.mp hp with rfl | hp
    · exact hs
    · exact h.written p hp

theorem append {rest : List Token} {parts' : List (List Token × Statement)} (h : Split line parts)
    (hrest : Split rest parts') : Split (line ++ rest) (parts ++ parts') := by
  constructor
  · rw [List.map_append, List.flatten_append, h.words, hrest.words]
  · intro p hp
    rcases List.mem_append.mp hp with hp | hp
    · exact h.written p hp
    · exact hrest.written p hp

theorem inversion {p : List Token × Statement} (h : Split line (p :: parts)) :
    Written p.1 p.2 ∧ ∃ rest, line = p.1 ++ rest ∧ Split rest parts := by
  refine ⟨h.written p List.mem_cons_self, (parts.map Prod.fst).flatten, ?_, rfl, ?_⟩
  · rw [← h.words, List.map_cons, List.flatten_cons]
  · intro q hq
    exact h.written q (List.mem_cons_of_mem p hq)

theorem ofLine_append (h : Split line parts) (rest : List Token) :
    Statement.ofLine (line ++ rest) =
      (parts.map Prod.snd).map .ok ++ Statement.ofLine rest := by
  induction parts generalizing line with
  | nil =>
    have hline : line = [] := h.words.symm
    rw [hline]
    rfl
  | cons p parts ih =>
    obtain ⟨hp, line, rfl, hline⟩ := h.inversion
    rw [List.append_assoc, Statement.ofLine_written hp, ih hline]
    rfl

theorem ofLine (h : Split line parts) :
    Statement.ofLine line = (parts.map Prod.snd).map .ok := by
  have happend := h.ofLine_append []
  rwa [List.append_nil, Statement.ofLine_nil, List.append_nil] at happend

end Split

theorem split_of_ofLine {line : List Token} {ss : List Statement}
    {more : List (Except AssemblyError Statement)}
    (h : Statement.ofLine line = ss.map .ok ++ more) :
    ∃ start rest parts, line = start ++ rest ∧ Split start parts ∧ parts.map Prod.snd = ss ∧
      Statement.ofLine rest = more := by
  induction ss generalizing line with
  | nil => exact ⟨[], line, [], rfl, .nil, rfl, h⟩
  | cons s ss ih =>
    have hline : line ≠ [] := by
      rintro rfl
      cases h
    rcases written_or_malformed hline with ⟨ws, rest, s', rfl, hs⟩ | ⟨e, he⟩
    · rw [Statement.ofLine_written hs, List.map_cons, List.cons_append, List.cons.injEq] at h
      obtain ⟨hfirst, hrest⟩ := h
      cases hfirst
      obtain ⟨start, rest, parts, rfl, hparts, rfl, hmore⟩ := ih hrest
      exact ⟨ws ++ start, rest, (ws, s) :: parts, (List.append_assoc _ _ _).symm, hparts.cons hs,
        rfl, hmore⟩
    · rw [Statement.ofLine_malformed he] at h
      cases h

/-- The number of words that a statement is written with. -/
def Statement.words : Statement → Nat
  | .label _ => 1
  | .instr (.plain _) => 1
  | .instr _ => 2

theorem Written.length_eq {ws : List Token} {s : Statement} (h : Written ws s) :
    ws.length = s.words := by
  cases h <;> rfl

/-- What is read first decides how many words it takes, so nothing is left to choose. -/
theorem Split.unique {line : List Token} {parts parts' : List (List Token × Statement)}
    (h : Split line parts) (h' : Split line parts') : parts = parts' := by
  induction parts generalizing line parts' with
  | nil =>
    have hread : Statement.ofLine line = [] := h.ofLine
    rw [h'.ofLine, List.map_map, List.map_eq_nil_iff] at hread
    exact hread.symm
  | cons p parts ih =>
    obtain ⟨hp, rest, hline, hrest⟩ := h.inversion
    cases parts' with
    | nil =>
      have hread : Statement.ofLine line = [] := h'.ofLine
      rw [h.ofLine] at hread
      cases hread
    | cons p' parts' =>
      obtain ⟨hp', rest', hline', hrest'⟩ := h'.inversion
      have hread : Statement.ofLine line = .ok p.2 :: Statement.ofLine rest := by
        rw [hline, Statement.ofLine_written hp]
      rw [hline', Statement.ofLine_written hp', List.cons.injEq, Except.ok.injEq] at hread
      have hlength : p.1.length = p'.1.length := by
        rw [hp.length_eq, hp'.length_eq, hread.1]
      obtain ⟨hwords, htail⟩ := List.append_inj (hline.symm.trans hline') hlength
      rw [← htail] at hrest'
      rw [ih hrest hrest', Prod.ext hwords hread.1.symm]

end StackMachine
