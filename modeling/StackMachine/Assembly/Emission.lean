import StackMachine.Assembly.Listing

/-!
# StackMachine.Assembly.Emission

The bytes of a collected program.

* `offset?`: the distance from a jump to its target, if an operand can hold it.
* `Instr.resolve`: replaces a label by the distance to it.
* `Statement.encode`: the bytes of a statement at an address.
* `Statement.emit`: appends them to code; on an error the code is given back as it was.
* `Listing.emit`: the code of the whole program, or the first error.
-/

namespace StackMachine

abbrev Code := Array UInt8

/-- The distance from `address` to `target`, as far as a signed 32-bit number reaches. -/
def offset? (target address : Nat) : Option Offset :=
  let distance : Int := target - address
  if Int32.minValue.toInt ≤ distance ∧ distance ≤ Int32.maxValue.toInt then
    some (Int32.ofInt distance)
  else none

def Label.offset (l : Label) (address : Nat) (symbols : Symbols) :
    Except AssemblyError Offset :=
  match symbols.get? l.name with
  | none => .error ⟨.unresolvedLabel l.name, l.span⟩
  | some target =>
    match offset? target address with
    | none => .error ⟨.offsetOutOfRange l.name, l.span⟩
    | some d => .ok d

def Instr.resolve (address : Nat) (symbols : Symbols) :
    Instr Label → Except AssemblyError (Instr Offset)
  | .plain op => .ok (.plain op)
  | .imm w => .ok (.imm w)
  | .reg m r => .ok (.reg m r)
  | .held m r => .ok (.held m r)
  | .fixed m a => .ok (.fixed m a)
  | .jump k l => (l.offset address symbols).map (.jump k)

namespace Statement

def encode (address : Nat) (symbols : Symbols) : Statement → Except AssemblyError (List UInt8)
  | .instr i => (i.resolve address symbols).map Instr.encode
  | .label _ => .ok []

def emit (s : Statement) (address : Nat) (symbols : Symbols) (out : Code) :
    Option AssemblyError × Code :=
  match s.encode address symbols with
  | .error e => (some e, out)
  | .ok bytes => (none, out ++ bytes.toArray)

def emitAll (symbols : Symbols) : List Statement → Code → Except AssemblyError Code
  | [], out => .ok out
  | s :: rest, out =>
    match s.emit out.size symbols out with
    | (some e, _) => .error e
    | (none, out) => emitAll symbols rest out

end Statement

def Listing.emit (l : Listing) : Except AssemblyError Code :=
  Statement.emitAll l.symbols l.statements.toList #[]

theorem offset?_eq_some_iff {target address : Nat} {d : Offset} :
    offset? target address = some d ↔ d.toInt = target - address := by
  simp only [offset?]
  constructor
  · intro h
    split at h
    · rename_i hr
      obtain ⟨hlow, hhigh⟩ := hr
      cases h
      rw [Int32.toInt_ofInt]
      have hmin : Int32.minValue.toInt = -2147483648 := rfl
      have hmax : Int32.maxValue.toInt = 2147483647 := rfl
      apply Int.bmod_eq_of_le <;> simp only [Int32.size] <;> omega
    · cases h
  · intro h
    have hlow := d.minValue_le_toInt
    have hhigh := d.toInt_le
    rw [h] at hlow hhigh
    rw [if_pos ⟨hlow, hhigh⟩, ← h, Int32.ofInt_toInt]

theorem Label.offset_eq_ok_iff {l : Label} {address : Nat} {symbols : Symbols} {d : Offset} :
    l.offset address symbols = .ok d ↔
      ∃ target, symbols.get? l.name = some target ∧ (address : Int) + d.toInt = target := by
  unfold Label.offset
  cases symbols.get? l.name with
  | none => simp
  | some target =>
    cases hd : offset? target address with
    | none =>
      simp only [hd, reduceCtorEq, Option.some.injEq, exists_eq_left', false_iff]
      intro h
      have hs : offset? target address = some d := offset?_eq_some_iff.mpr (by omega)
      rw [hd] at hs
      cases hs
    | some d' =>
      have hd' := offset?_eq_some_iff.mp hd
      simp only [hd, Except.ok.injEq, Option.some.injEq, exists_eq_left']
      constructor
      · rintro rfl
        omega
      · intro h
        exact Int32.toInt_inj.mp (by omega)

theorem Instr.size_resolve {address : Nat} {symbols : Symbols} {i : Instr Label}
    {j : Instr Offset} (h : i.resolve address symbols = .ok j) : j.size = i.size := by
  cases i <;> simp only [Instr.resolve, Except.ok.injEq] at h
  case jump k l =>
    cases hl : l.offset address symbols with
    | error e => rw [hl] at h; simp [Except.map] at h
    | ok d =>
      rw [hl] at h
      simp only [Except.map, Except.ok.injEq] at h
      subst h
      rfl
  all_goals subst h; rfl

theorem Statement.length_encode {address : Nat} {symbols : Symbols} {s : Statement}
    {bytes : List UInt8} (h : s.encode address symbols = .ok bytes) : bytes.length = s.size := by
  cases s with
  | label l =>
    simp only [Statement.encode, Except.ok.injEq] at h
    subst h
    rfl
  | instr i =>
    simp only [Statement.encode] at h
    cases hi : i.resolve address symbols with
    | error e => rw [hi] at h; simp [Except.map] at h
    | ok j =>
      rw [hi] at h
      simp only [Except.map, Except.ok.injEq] at h
      subst h
      simp [Statement.size, Instr.size_resolve hi]

end StackMachine
