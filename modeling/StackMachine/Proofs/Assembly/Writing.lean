import Mathlib.Algebra.Order.Ring.Int
import StackMachine.Proofs.Assembly.Linking
import StackMachine.Proofs.Machine.Guarded

/-!
# StackMachine.Proofs.Assembly.Writing

One statement, written behind code that is changed in place. The writer computes with signed 64-bit
numbers and puts down one piece after another, so an error could leave a piece behind. None does.

* `distance`, `narrow?`: the difference of two places with 64 bits, and what 32 bits hold of it.
  Below `2 ^ 63` this is `offset?` (`narrow?_distance`).
* `Statement.write`: the writer. It does what `Statement.emit` says (`Statement.write_eq_emit`).
* `emit_exact`: a statement is refused only for a label that has no place or one too far away.
  Otherwise its bytes come behind the code, and a jump among them leads to its label.
-/

namespace StackMachine

section Distance

variable {target address : Nat}

def distance (target address : Nat) : Int64 := Int64.ofNat target - Int64.ofNat address

def narrow? (x : Int64) : Option Int32 :=
  if Int32.minValue.toInt ≤ x.toInt ∧ x.toInt ≤ Int32.maxValue.toInt then some x.toInt32 else none

/-- Below `2 ^ 63` neither place wraps, and their difference does not either. -/
theorem toInt_distance (htarget : target < 2 ^ 63) (haddress : address < 2 ^ 63) :
    (distance target address).toInt = target - address := by
  rw [distance, Int64.toInt_sub, Int64.toInt_ofNat_of_lt htarget,
    Int64.toInt_ofNat_of_lt haddress, Int.bmod_def]
  omega

theorem narrow?_distance (htarget : target < 2 ^ 63) (haddress : address < 2 ^ 63) :
    narrow? (distance target address) = offset? target address := by
  have hsame : (distance target address).toInt32 = Int32.ofInt (target - address) := by
    apply Int32.toInt_inj.mp
    rw [Int64.toInt_toInt32, Int32.toInt_ofInt, toInt_distance htarget haddress]
  rw [narrow?, offset?, toInt_distance htarget haddress, hsame]

end Distance

/-- Changes code in place. What was written before an error stays there. -/
abbrev Writer := ExceptT AssemblyError (StateM Code)

namespace Writer

def byte (b : UInt8) : Writer Unit := modify fun out => out.push b

def bytes (bs : List UInt8) : Writer Unit := modify fun out => out ++ bs.toArray

/-- The error, if there is one, and the code as it is left. -/
def outcome (w : Writer Unit) (out : Code) : Option AssemblyError × Code :=
  match w.run.run out with
  | (.ok _, after) => (none, after)
  | (.error e, after) => (some e, after)

theorem outcome_byte_bytes (b : UInt8) (bs : List UInt8) (out : Code) :
    outcome (do byte b; bytes bs) out = (none, out ++ (b :: bs).toArray) := by
  show (none, out.push b ++ bs.toArray) = _
  simp

end Writer

namespace Statement

open Writer

/-- Writes the opcode of a statement and then its operand. The distance to a label is found out
before that. -/
def write (address : Nat) (symbols : Symbols) : Statement → Writer Unit
  | label _ => pure ()
  | instr (.plain op) => byte (Opcode.plain op).byte
  | instr (.reg m r) => bytes [(Opcode.reg m).byte, r.code]
  | instr (.held m r) => bytes [(Opcode.held m).byte, r.code]
  | instr (.imm w) => do
    byte Opcode.imm.byte
    bytes w.bytes
  | instr (.fixed m a) => do
    byte (Opcode.fixed m).byte
    bytes (int32Bytes a)
  | instr (.jump k l) => do
    let target ← (symbols.get? l.name).getDM (throw ⟨.unresolvedLabel l.name, l.span⟩)
    let d ← (narrow? (distance target address)).getDM (throw ⟨.offsetOutOfRange l.name, l.span⟩)
    byte (Opcode.jump k).byte
    bytes (int32Bytes d)

end Statement

theorem Symbols.exists_entry {t : Symbols} {name : String} {address : Nat}
    (h : t.get? name = some address) : ∃ e ∈ t.entries, e.2 = address := by
  obtain ⟨before, after, hsplit, -⟩ := List.lookup_eq_some_iff.mp h
  exact ⟨(name, address), by simp [hsplit], rfl⟩

section Exact

variable {i : Instr Label} {j : Instr Offset} {address target : Nat} {symbols : Symbols}
  {d : Offset} {e : AssemblyError} (out : Code)

namespace Statement

theorem emit_of_resolve (h : i.resolve address symbols = .ok j) :
    (instr i).emit address symbols out = (none, out ++ j.encode.toArray) := by
  rw [emit, encode, h]
  rfl

theorem emit_of_refused (h : i.resolve address symbols = .error e) :
    (instr i).emit address symbols out = (some e, out) := by
  rw [emit, encode, h]
  rfl

theorem outcome_write_jump (haddress : address < 2 ^ 63)
    (hsymbols : ∀ e ∈ symbols.entries, e.2 < 2 ^ 63) (k : Jump) (l : Label) :
    ((instr (.jump k l)).write address symbols).outcome out =
      match l.offset address symbols with
      | .ok d => (none, out ++ (Instr.jump k d).encode.toArray)
      | .error e => (some e, out) := by
  cases ht : symbols.get? l.name with
  | none =>
    simp only [write, Label.offset, ht]
    rfl
  | some target =>
    obtain ⟨entry, hentry, rfl⟩ := Symbols.exists_entry ht
    have hd := narrow?_distance (hsymbols entry hentry) haddress
    cases ho : offset? entry.2 address with
    | none =>
      rw [ho] at hd
      simp only [write, Label.offset, ht, Option.getDM_some, pure_bind, hd, ho]
      rfl
    | some d =>
      rw [ho] at hd
      simp only [write, Label.offset, ht, Option.getDM_some, pure_bind, hd, ho]
      exact Writer.outcome_byte_bytes _ _ _

/-- The writer appends what is emitted, and where it is refused it has not written anything. -/
theorem write_eq_emit (haddress : address < 2 ^ 63)
    (hsymbols : ∀ e ∈ symbols.entries, e.2 < 2 ^ 63) (s : Statement) :
    (s.write address symbols).outcome out = s.emit address symbols out := by
  cases s with
  | label l =>
    show (none, out) = (none, out ++ #[])
    rw [Array.append_empty]
  | instr i =>
    cases i with
    | jump k l =>
      rw [outcome_write_jump out haddress hsymbols]
      cases hl : l.offset address symbols with
      | error e =>
        exact (emit_of_refused out (Instr.resolve_eq_error_iff.mpr ⟨k, l, rfl, hl⟩)).symm
      | ok d =>
        have hresolve : (Instr.jump k l).resolve address symbols = .ok (.jump k d) := by
          rw [Instr.resolve, hl]
          rfl
        exact (emit_of_resolve out hresolve).symm
    | plain op =>
      rw [emit_of_resolve out rfl]
      show (none, out.push _) = _
      rw [Array.push_eq_append]
      rfl
    | imm w =>
      rw [emit_of_resolve out rfl]
      exact Writer.outcome_byte_bytes _ _ _
    | reg m r =>
      rw [emit_of_resolve out rfl]
      rfl
    | held m r =>
      rw [emit_of_resolve out rfl]
      rfl
    | fixed m a =>
      rw [emit_of_resolve out rfl]
      exact Writer.outcome_byte_bytes _ _ _

end Statement

theorem fetch_append_encode (j : Instr Offset) :
    fetch (out ++ j.encode.toArray) out.size = .ok j := by
  have h := fetch_encode out.toList [] j
  rw [List.append_nil, ← List.append_toArray, Array.toArray_toList] at h
  exact h

theorem int32OfBytes_jump (k : Jump) (d : Offset) :
    int32OfBytes ((out ++ (Instr.jump k d).encode.toArray).extract (out.size + 1)
      (out.size + 5)).toList = d := by
  have hbytes : ((out ++ (Instr.jump k d).encode.toArray).extract (out.size + 1)
      (out.size + 5)).toList = int32Bytes d := by
    have hencode : (Instr.jump k d).encode = (Opcode.jump k).byte :: int32Bytes d := rfl
    have htake : (int32Bytes d).take 4 = int32Bytes d :=
      List.take_of_length_le (Nat.le_of_eq (length_int32Bytes d))
    simp [hencode, List.extract_eq_take_drop, htake]
  rw [hbytes, int32OfBytes_int32Bytes]

theorem jumpTarget?_of_add_eq {code : Code} (h : (address : Int) + d.toInt = target)
    (htarget : target < code.size) : jumpTarget? code address d = some target := by
  have hinside : (0 : Int) ≤ target ∧ (target : Int) < code.size := by omega
  rw [jumpTarget?, h, if_pos hinside]
  rfl

theorem target?_of_add_eq {code : Code} (haddress : address < 2 ^ 63)
    (h : (address : Int) + d.toInt = target) (hsigned : target < 2 ^ 63)
    (htarget : target < code.size) :
    target? Signed.keep? code address d = some (some target) := by
  have hplace : (address : Int).bmod (2 ^ 64) = address := by
    rw [Int.bmod_def]
    omega
  have hsum : Signed target := by
    unfold Signed
    omega
  have hinside : (0 : Int) ≤ target ∧ (target : Int) < code.size := by omega
  rw [target?, hplace, h, Signed.keep?, if_pos hsum, Option.map_some, if_pos hinside]
  rfl

/-- A statement is refused before anything is written, has no bytes, or has those of an
instruction that says the same. -/
theorem Statement.emit_cases (address : Nat) (symbols : Symbols) (s : Statement) :
    (∃ k l e, s = instr (.jump k l) ∧ l.offset address symbols = .error e ∧
        s.emit address symbols out = (some e, out)) ∨
      (∃ l, s = label l ∧ s.emit address symbols out = (none, out)) ∨
      ∃ i j, s = instr i ∧ i.Means symbols address j ∧
        s.emit address symbols out = (none, out ++ j.encode.toArray) := by
  cases s with
  | label l => exact .inr (.inl ⟨l, rfl, by simp [emit, encode]⟩)
  | instr i =>
    cases hi : i.resolve address symbols with
    | error e =>
      obtain ⟨k, l, rfl, hl⟩ := Instr.resolve_eq_error_iff.mp hi
      exact .inl ⟨k, l, e, rfl, hl, emit_of_refused out hi⟩
    | ok j => exact .inr (.inr ⟨i, j, rfl, Instr.means_of_resolve hi, emit_of_resolve out hi⟩)

theorem Statement.emit_eq_error_iff (s : Statement) :
    (s.emit address symbols out).1 = some e ↔
      ∃ k l, s = instr (.jump k l) ∧ l.offset address symbols = .error e := by
  constructor
  · intro h
    obtain ⟨k, l, e', hs, hl, hemit⟩ | ⟨l, hs, hemit⟩ | ⟨i, j, hs, hmeans, hemit⟩ :=
      emit_cases out address symbols s
    · rw [hemit] at h
      cases h
      exact ⟨k, l, hs, hl⟩
    · rw [hemit] at h
      cases h
    · rw [hemit] at h
      cases h
  · rintro ⟨k, l, rfl, hl⟩
    rw [emit_of_refused out (Instr.resolve_eq_error_iff.mpr ⟨k, l, rfl, hl⟩)]

/-- Emission of one statement is exact and atomic. It is refused exactly if it is a jump whose label
has no place or one that 32 bits do not reach, and then the code is as it was. Otherwise its bytes
come behind the code, which stays, and the processor finds there what the statement says. With the
distance among these bytes it jumps to the place of the label, in any code that has this place. -/
theorem emit_exact (s : Statement) (haddress : address < 2 ^ 63)
    (hsymbols : ∀ e ∈ symbols.entries, e.2 < 2 ^ 63) :
    let emitted := s.emit address symbols out
    (s.write address symbols).outcome out = emitted ∧
      (∀ e, emitted.1 = some e ↔ ∃ k l, s = .instr (.jump k l) ∧
        ((symbols.get? l.name = none ∧ e = ⟨.unresolvedLabel l.name, l.span⟩) ∨
          ∃ target, symbols.get? l.name = some target ∧ ¬ InReach (target - address : Int) ∧
            e = ⟨.offsetOutOfRange l.name, l.span⟩)) ∧
      (∀ e, emitted.1 = some e → emitted.2 = out) ∧
      (emitted.1 = none →
        (∃ bytes : List UInt8, emitted.2 = out ++ bytes.toArray ∧ bytes.length = s.size) ∧
        (∀ i, s = .instr i →
          ∃ j, fetch emitted.2 out.size = .ok j ∧ i.Means symbols address j) ∧
        ∀ k l target, s = .instr (.jump k l) → symbols.get? l.name = some target →
          ∀ code : Code, target < code.size →
            let d := int32OfBytes (emitted.2.extract (out.size + 1) (out.size + 5)).toList
            jumpTarget? code address d = some target ∧
              target? Signed.keep? code address d = some (some target)) := by
  intro emitted
  refine ⟨Statement.write_eq_emit out haddress hsymbols s, ?_, ?_, ?_⟩
  · intro e
    rw [Statement.emit_eq_error_iff]
    simp only [Label.offset_eq_error_iff]
  · intro e he
    obtain ⟨k, l, e', hs, hl, hemit⟩ | ⟨l, hs, hemit⟩ | ⟨i, j, hs, hmeans, hemit⟩ :=
      Statement.emit_cases out address symbols s
    · exact congrArg Prod.snd hemit
    · exact congrArg Prod.snd hemit
    · rw [show emitted = _ from hemit] at he
      cases he
  · intro hnone
    obtain ⟨k, l, e, hs, hl, hemit⟩ | ⟨l, rfl, hemit⟩ | ⟨i, j, rfl, hmeans, hemit⟩ :=
      Statement.emit_cases out address symbols s
    · rw [show emitted = _ from hemit] at hnone
      cases hnone
    · rw [show emitted = _ from hemit]
      refine ⟨⟨[], by simp⟩, ?_, ?_⟩
      · intro i hi
        cases hi
      · intro k l' target hs
        cases hs
    · rw [show emitted = _ from hemit]
      refine ⟨⟨j.encode, rfl, ?_⟩, ?_, ?_⟩
      · rw [Instr.length_encode, hmeans.size_eq]
        rfl
      · intro i' hi
        cases hi
        exact ⟨j, fetch_append_encode out j, hmeans⟩
      · intro k l target hs htarget code hcode
        cases hs
        cases hmeans with
        | @jump _ _ d target' ht hsum =>
          rw [htarget] at ht
          cases ht
          obtain ⟨entry, hentry, rfl⟩ := Symbols.exists_entry htarget
          rw [int32OfBytes_jump]
          exact ⟨jumpTarget?_of_add_eq hsum hcode,
            target?_of_add_eq haddress hsum (hsymbols entry hentry) hcode⟩

end Exact

/-- A call back over five bytes, and a jump to the other end of what 63 bits count. -/
theorem emit_exact_backward :
    let symbols : Symbols := ⟨[("far", 3), ("top", 2 ^ 62)]⟩
    let address := 2 ^ 62 + 5
    let call := Statement.instr (.jump .call ⟨"top", ⟨8, 3⟩⟩)
    let jump := Statement.instr (.jump .always ⟨"far", ⟨8, 3⟩⟩)
    address < 2 ^ 63 ∧ (∀ e ∈ symbols.entries, e.2 < 2 ^ 63) ∧
      call.emit address symbols #[7] = (none, #[7, 0x1b, 0xfb, 0xff, 0xff, 0xff]) ∧
      (∀ code : Code, 2 ^ 62 < code.size →
        jumpTarget? code address (int32OfBytes [0xfb, 0xff, 0xff, 0xff]) = some (2 ^ 62)) ∧
      (jump.write address symbols).outcome #[7] =
        (some ⟨.offsetOutOfRange "far", ⟨8, 3⟩⟩, #[7]) := by
  intro symbols address call jump
  have haddress : address < 2 ^ 63 := by decide
  have hsymbols : ∀ e ∈ symbols.entries, e.2 < 2 ^ 63 := by decide
  have hcall : call.emit address symbols #[7] = (none, #[7, 0x1b, 0xfb, 0xff, 0xff, 0xff]) := by
    decide +kernel
  obtain ⟨-, -, -, hwritten⟩ := emit_exact #[7] call haddress hsymbols
  obtain ⟨hrefused, herror, hkept, -⟩ := emit_exact #[7] jump haddress hsymbols
  refine ⟨haddress, hsymbols, hcall, ?_, ?_⟩
  · intro code hcode
    rw [hcall] at hwritten
    obtain ⟨-, -, hleads⟩ := hwritten rfl
    exact (hleads .call ⟨"top", ⟨8, 3⟩⟩ (2 ^ 62) rfl rfl code hcode).1
  · have hfar : ¬ InReach (((3 : Nat) : Int) - (address : Nat)) := by
      rintro ⟨hlow, -⟩
      revert hlow
      decide
    have he := (herror _).mpr ⟨.always, ⟨"far", ⟨8, 3⟩⟩, rfl, .inr ⟨3, rfl, hfar, rfl⟩⟩
    rw [hrefused]
    exact Prod.ext he (hkept _ he)

end StackMachine
