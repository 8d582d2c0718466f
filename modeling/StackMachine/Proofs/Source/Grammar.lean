import StackMachine.Proofs.Decimal.Numeral
import StackMachine.Source.Statement

/-!
# StackMachine.Proofs.Source.Grammar

The grammar of statements, apart from any way of reading them.

* `Name`, `Spells`, `Bracketed`: the shapes of words.
* `Written`: the words of a statement, and the statement that is read off them.
* `Malformed`: words that begin no statement, and the error that they show.
* `Split`: a line divided into the words of one statement after another.
-/

namespace StackMachine

def Letter (c : Char) : Prop := ('a' ≤ c ∧ c ≤ 'z') ∨ ('A' ≤ c ∧ c ≤ 'Z')

inductive Name : List Char → Prop where
  | mk {c : Char} {cs : List Char} : Letter c ∨ c = '_' →
      (∀ d ∈ cs, Letter d ∨ ('0' ≤ d ∧ d ≤ '9') ∨ d = '_') → Name (c :: cs)

/-- A word says a name, in any case. -/
def Spells (word name : List Char) : Prop := word.map Char.toLower = name

def Bracketed (word inner : List Char) : Prop := word = '[' :: inner ++ [']']

/-- A word defines a label, or tries to. -/
def Defines (word name : List Char) : Prop := word = name ++ [':']

inductive Numeric : List Char → Prop where
  | mk {c : Char} {cs : List Char} : ('0' ≤ c ∧ c ≤ '9') ∨ c = '-' ∨ c = '+' → Numeric (c :: cs)

/-- The text between brackets is a whole number that fits a fixed address. -/
def Address (inner : List Char) (a : Int32) : Prop := Decimal.Integer inner a.toInt ∧ 0 ≤ a.toInt

inductive Written : List Token → Statement → Prop where
  | label {t : Token} {name : List Char} : Defines t.text name → Name name →
      Written [t] (.label ⟨String.ofList name, ⟨t.start, Utf8.size name⟩⟩)
  | plain {t : Token} {op : Plain} : Spells t.text op.mnemonic.toList →
      Written [t] (.instr (.plain op))
  | jump {t arg : Token} {k : Jump} : Spells t.text k.mnemonic.toList → Name arg.text →
      Written [t, arg] (.instr (.jump k ⟨String.ofList arg.text, arg.span⟩))
  | fixed {t arg : Token} {m : Move} {inner : List Char} {a : Int32} :
      Spells t.text m.mnemonic.toList → Bracketed arg.text inner → Address inner a →
      Written [t, arg] (.instr (.fixed m a))
  | held {t arg : Token} {m : Move} {inner : List Char} {r : Reg} :
      Spells t.text m.mnemonic.toList → Bracketed arg.text inner → Spells inner r.name →
      Written [t, arg] (.instr (.held m r))
  | reg {t arg : Token} {m : Move} {r : Reg} :
      Spells t.text m.mnemonic.toList → Spells arg.text r.name →
      Written [t, arg] (.instr (.reg m r))
  | imm {t arg : Token} {w : Word} : Spells t.text (Move.mnemonic .push).toList →
      Decimal.Literal arg.text w → Written [t, arg] (.instr (.imm w))

/-- The words from the beginning of a statement to the end of its line, if they begin no statement.
The error shows the first thing that is wrong. -/
inductive Malformed : List Token → AssemblyError → Prop where
  | label {t : Token} {ts : List Token} {name : List Char} : Defines t.text name → ¬ Name name →
      Malformed (t :: ts) ⟨.invalidLabel (String.ofList name), t.span⟩
  | mnemonic {t : Token} {ts : List Token} : (∀ name, ¬ Defines t.text name) →
      (∀ op : Plain, ¬ Spells t.text op.mnemonic.toList) →
      (∀ k : Jump, ¬ Spells t.text k.mnemonic.toList) →
      (∀ m : Move, ¬ Spells t.text m.mnemonic.toList) →
      Malformed (t :: ts) ⟨.unknownMnemonic (String.ofList t.text), t.span⟩
  | target {t : Token} {k : Jump} : Spells t.text k.mnemonic.toList →
      Malformed [t] ⟨.emptyArgument k.mnemonic, ⟨t.span.finish, 0⟩⟩
  | place {t : Token} {m : Move} : Spells t.text m.mnemonic.toList →
      Malformed [t] ⟨.emptyArgument m.mnemonic, ⟨t.span.finish, 0⟩⟩
  | jump {t arg : Token} {ts : List Token} {k : Jump} : Spells t.text k.mnemonic.toList →
      ¬ Name arg.text →
      Malformed (t :: arg :: ts) ⟨.invalidLabel (String.ofList arg.text), arg.span⟩
  | brackets {t arg : Token} {ts : List Token} {m : Move} : Spells t.text m.mnemonic.toList →
      Bracketed arg.text [] → Malformed (t :: arg :: ts) ⟨.emptyArgument m.mnemonic, arg.span⟩
  | fixed {t arg : Token} {ts : List Token} {m : Move} {inner : List Char} :
      Spells t.text m.mnemonic.toList → Bracketed arg.text inner → Numeric inner →
      (∀ a, ¬ Address inner a) →
      Malformed (t :: arg :: ts)
        ⟨.invalidAddress m.mnemonic (String.ofList inner), ⟨arg.start + 1, Utf8.size inner⟩⟩
  | held {t arg : Token} {ts : List Token} {m : Move} {inner : List Char} :
      Spells t.text m.mnemonic.toList → Bracketed arg.text inner → inner ≠ [] → ¬ Numeric inner →
      (∀ r : Reg, ¬ Spells inner r.name) →
      Malformed (t :: arg :: ts)
        ⟨.invalidRegister m.mnemonic (String.ofList inner), ⟨arg.start + 1, Utf8.size inner⟩⟩
  | reg {t arg : Token} {ts : List Token} {m : Move} : Spells t.text m.mnemonic.toList →
      (∀ inner, ¬ Bracketed arg.text inner) → (m = .push → ∀ w, ¬ Decimal.Literal arg.text w) →
      (∀ r : Reg, ¬ Spells arg.text r.name) →
      Malformed (t :: arg :: ts)
        ⟨.invalidRegister m.mnemonic (String.ofList arg.text), arg.span⟩

/-- The statements of a line, each with its words. -/
structure Split (line : List Token) (parts : List (List Token × Statement)) : Prop where
  words : (parts.map Prod.fst).flatten = line
  written : ∀ p ∈ parts, Written p.1 p.2

section Shapes

variable {cs name inner : List Char} {c : Char}

theorem isAlpha_iff : c.isAlpha = true ↔ Letter c := by
  show (decide ('A' ≤ c ∧ c ≤ 'Z') || (decide ('a' ≤ c) && decide (c ≤ 'z'))) = true ↔ Letter c
  simp only [Letter, Bool.or_eq_true, Bool.and_eq_true, decide_eq_true_eq]
  exact or_comm

theorem isAlpha_of_isDigit (h : Decimal.isDigit c = true) : c.isAlpha = false := by
  have hhigh : c.toNat ≤ 57 := (Decimal.isDigit_iff.mp h).2
  rw [← Bool.not_eq_true, isAlpha_iff]
  rintro (⟨hlow, -⟩ | ⟨hlow, -⟩)
  · have hlow : 97 ≤ c.toNat := hlow
    omega
  · have hlow : 65 ≤ c.toNat := hlow
    omega

theorem isAlphanum_iff : c.isAlphanum = true ↔ Letter c ∨ ('0' ≤ c ∧ c ≤ '9') := by
  simp only [Char.isAlphanum, Char.isDigit, Bool.or_eq_true, Bool.and_eq_true, decide_eq_true_eq,
    isAlpha_iff]
  rfl

theorem isLabelName_iff : isLabelName cs = true ↔ Name cs := by
  cases cs with
  | nil =>
    constructor
    · nofun
    · nofun
  | cons c cs =>
    have hrest : (cs.all fun d => d.isAlphanum || d == '_') = true ↔
        ∀ d ∈ cs, Letter d ∨ ('0' ≤ d ∧ d ≤ '9') ∨ d = '_' := by
      simp [isAlphanum_iff, or_assoc]
    simp only [isLabelName, Bool.and_eq_true, hrest, Bool.or_eq_true, isAlpha_iff, beq_iff_eq]
    constructor
    · rintro ⟨hc, hcs⟩
      exact .mk hc hcs
    · rintro ⟨hc, hcs⟩
      exact ⟨hc, hcs⟩

theorem stripLast?_eq_some_iff {last : Char} :
    stripLast? last cs = some name ↔ cs = name ++ [last] := by
  simp only [stripLast?]
  constructor
  · intro h
    split at h
    · rename_i hlast
      cases h
      obtain ⟨ys, hys⟩ := List.getLast?_eq_some_iff.mp hlast
      rw [hys, List.dropLast_concat]
    · cases h
  · rintro rfl
    simp

theorem bracketed?_eq_some_iff : bracketed? cs = some inner ↔ Bracketed cs inner := by
  unfold bracketed?
  split
  · rename_i ds
    rw [stripLast?_eq_some_iff, Bracketed, List.cons_append, List.cons.injEq]
    exact ⟨fun h => ⟨rfl, h⟩, fun h => h.2⟩
  · rename_i hfirst
    constructor
    · nofun
    · intro h
      exact absurd h (hfirst _)

theorem looksNumeric_iff : looksNumeric cs = true ↔ Numeric cs := by
  cases cs with
  | nil =>
    constructor
    · nofun
    · nofun
  | cons c cs =>
    simp only [looksNumeric, Bool.or_eq_true, Decimal.isDigit_iff, beq_iff_eq]
    constructor
    · intro h
      exact .mk (or_assoc.mp h)
    · rintro ⟨h⟩
      exact or_assoc.mpr h

theorem address?_eq_some_iff {a : Int32} : address? cs = some a ↔ Address cs a := by
  constructor
  · intro h
    unfold address? at h
    split at h
    · rename_i n hn
      split at h
      · rename_i hrange
        cases h
        have hmax : Int32.maxValue.toInt = 2147483647 := rfl
        have htoInt : (Int32.ofInt n).toInt = n :=
          Int32.toInt_ofInt_of_le (by omega) (by omega)
        rw [Address, htoInt]
        exact ⟨Decimal.signed?_eq_some_iff.mp hn, hrange.1⟩
      · cases h
    · cases h
  · rintro ⟨hinteger, hlow⟩
    have hrange : 0 ≤ a.toInt ∧ a.toInt ≤ Int32.maxValue.toInt := ⟨hlow, a.toInt_le⟩
    simp only [address?, Decimal.signed?_eq_some_iff.mpr hinteger]
    rw [if_pos hrange, Int32.ofInt_toInt]

theorem ofName?_eq_some_iff {r : Reg} : Reg.ofName? cs = some r ↔ Spells cs r.name := by
  constructor
  · intro h
    have hr := List.find?_some h
    exact (beq_iff_eq.mp hr).symm
  · intro h
    unfold Reg.ofName?
    rw [h]
    cases r <;> rfl

end Shapes

section Mnemonics

variable {cs : List Char}

theorem Plain.ofMnemonic?_eq_some_iff {op : Plain} :
    Plain.ofMnemonic? cs = some op ↔ cs = op.mnemonic.toList := by
  constructor
  · intro h
    unfold Plain.ofMnemonic? at h
    split at h <;> cases h <;> rfl
  · rintro rfl
    rcases op with _ | _ | a | f | _ | _ | _
    · rfl
    · rfl
    · cases a <;> rfl
    · cases f <;> rfl
    · rfl
    · rfl
    · rfl

theorem Jump.ofMnemonic?_eq_some_iff {k : Jump} :
    Jump.ofMnemonic? cs = some k ↔ cs = k.mnemonic.toList := by
  constructor
  · intro h
    unfold Jump.ofMnemonic? at h
    split at h <;> cases h <;> rfl
  · rintro rfl
    rcases k with _ | c | _
    · rfl
    · cases c <;> rfl
    · rfl

theorem Move.ofMnemonic?_eq_some_iff {m : Move} :
    Move.ofMnemonic? cs = some m ↔ cs = m.mnemonic.toList := by
  constructor
  · intro h
    unfold Move.ofMnemonic? at h
    split at h <;> cases h <;> rfl
  · rintro rfl
    cases m <;> rfl

theorem Plain.ofMnemonic?_jump (k : Jump) : Plain.ofMnemonic? k.mnemonic.toList = none := by
  rcases k with _ | c | _
  · rfl
  · cases c <;> rfl
  · rfl

theorem Plain.ofMnemonic?_move (m : Move) : Plain.ofMnemonic? m.mnemonic.toList = none := by
  cases m <;> rfl

theorem Jump.ofMnemonic?_move (m : Move) : Jump.ofMnemonic? m.mnemonic.toList = none := by
  cases m <;> rfl

end Mnemonics

end StackMachine
