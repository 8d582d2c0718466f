import Mathlib.Data.List.Induction
import StackMachine.Proofs.Machine.Guarded

/-!
# StackMachine.Proofs.Machine.Memory

Memory as the history of what was stored in it.

* `Word.byteAt`: the bytes of a word; `Word.eq_of_byteAt`, they make it up.
* `Ram.byte_store`, `Ram.byteAt_word`: a store and a load, byte by byte.
* `Ram.replay`: memory after stores one after another, of which some may fail.
* `Ram.Covers`, `Ram.lastByte`: the byte at an address, read off the history alone.
* `Ram.byte_replay`: the last store that covers an address decides the byte there.
* `Ram.load_replay`: what loads and stores do after any history.
-/

namespace StackMachine

section Bytes

theorem LittleEndian.getElem?_encode {k i : Nat} (h : i < k) (n : Nat) :
    (encode k n)[i]? = some (UInt8.ofNat (n >>> (8 * i))) := by
  induction k generalizing n i with
  | zero => omega
  | succ k ih =>
    cases i with
    | zero => rfl
    | succ i =>
      have hbyte : n / 256 = n >>> 8 := (Nat.shiftRight_eq_div_pow n 8).symm
      have hshift : (n / 256) >>> (8 * i) = n >>> (8 * (i + 1)) := by
        rw [hbyte, ← Nat.shiftRight_add, Nat.mul_succ, Nat.add_comm]
      rw [encode, List.getElem?_cons_succ, ih (by omega), hshift]

theorem LittleEndian.decode_lt (bs : List UInt8) : decode bs < 256 ^ bs.length := by
  induction bs with
  | nil => decide
  | cons b bs ih =>
    have hb := b.toNat_lt
    rw [decode, List.length_cons, Nat.pow_succ]
    omega

namespace Word

def byteAt (w : Word) (i : Nat) : UInt8 := UInt8.ofNat (w.toNat >>> (8 * i))

theorem getElem?_bytes (w : Word) {i : Nat} (h : i < 8) : w.bytes[i]? = some (w.byteAt i) :=
  LittleEndian.getElem?_encode h w.toNat

theorem bytes_ofBytes {bs : List UInt8} (h : bs.length = 8) : (ofBytes bs).bytes = bs := by
  have hlt : LittleEndian.decode bs < 2 ^ 64 := by
    have := LittleEndian.decode_lt bs
    rw [h] at this
    exact this
  have hnat : (ofBytes bs).toNat = LittleEndian.decode bs := Nat.mod_eq_of_lt hlt
  rw [bytes, hnat, ← h, LittleEndian.encode_decode]

theorem eq_of_byteAt {v w : Word} (h : ∀ i < 8, v.byteAt i = w.byteAt i) : v = w := by
  have hbytes : v.bytes = w.bytes := by
    apply List.ext_getElem?
    intro i
    by_cases hi : i < 8
    · rw [getElem?_bytes v hi, getElem?_bytes w hi, h i hi]
    · rw [List.getElem?_eq_none (by simpa using hi), List.getElem?_eq_none (by simpa using hi)]
  rw [← ofBytes_bytes v, hbytes, ofBytes_bytes]

end Word

end Bytes

namespace Ram

variable {m n : Ram} {a : Int} {w : Word}

theorem fits_iff : m.fits a = true ↔ 0 ≤ a ∧ a + 8 ≤ m.capacity := by
  rw [fits, decide_eq_true_eq]
  exact Iff.rfl

theorem store_of_fits (h : m.fits a = true) (w : Word) :
    m.store a w = .ok (m.write a.toNat w.bytes) := if_pos h

theorem load_of_fits (h : m.fits a = true) : m.load a = .ok (m.word a.toNat) := if_pos h

theorem byte_store (h : m.store a w = .ok n) (x : Nat) :
    n.byte x = if a ≤ x ∧ x < a + 8 then w.byteAt (x - a.toNat) else m.byte x := by
  unfold store at h
  split at h
  · rename_i hfits
    have hin := fits_iff.mp hfits
    cases h
    rw [byte_write]
    by_cases hx : a ≤ x ∧ x < a + 8
    · have hlt : x - a.toNat < 8 := by omega
      rw [if_pos (by omega), if_pos hx, List.getD_eq_getElem?_getD, Word.getElem?_bytes w hlt,
        Option.getD_some]
    · rw [if_neg hx]
      split
      · have hnone : w.bytes[x - a.toNat]? = none := by
          apply List.getElem?_eq_none
          rw [Word.length_bytes]
          omega
        rw [List.getD_eq_getElem?_getD, hnone, Option.getD_none]
      · rfl
  · cases h

theorem getElem?_bytes (m : Ram) {a k i : Nat} (h : i < k) :
    (m.bytes a k)[i]? = some (m.byte (a + i)) := by
  induction k generalizing a i with
  | zero => omega
  | succ k ih =>
    cases i with
    | zero => rfl
    | succ i =>
      rw [bytes, List.getElem?_cons_succ, ih (by omega), Nat.add_right_comm]
      rfl

theorem length_bytes (m : Ram) (a k : Nat) : (m.bytes a k).length = k := by
  induction k generalizing a with
  | zero => rfl
  | succ k ih => rw [bytes, List.length_cons, ih]

theorem byteAt_word (m : Ram) (a : Nat) {i : Nat} (h : i < 8) :
    (m.word a).byteAt i = m.byte (a + i) := by
  have hbytes : (m.word a).bytes = m.bytes a 8 := Word.bytes_ofBytes (m.length_bytes a 8)
  have hbyte := Word.getElem?_bytes (m.word a) h
  rw [hbytes, m.getElem?_bytes h, Option.some.injEq] at hbyte
  exact hbyte.symm

/-- Memory after a store was tried. -/
def attempt (m : Ram) (a : Int) (w : Word) : Ram :=
  match m.store a w with
  | .ok n => n
  | .error _ => m

/-- Memory after stores were tried one after another. -/
def replay (m : Ram) (stores : List (Int × Word)) : Ram :=
  stores.foldl (fun m s => m.attempt s.1 s.2) m

/-- A store succeeds in memory of a size, and one of its bytes has an address. -/
def Covers (capacity : Nat) (s : Int × Word) (x : Nat) : Prop :=
  (0 ≤ s.1 ∧ s.1 + 8 ≤ capacity) ∧ s.1 ≤ x ∧ x < s.1 + 8

instance (capacity : Nat) (s : Int × Word) (x : Nat) : Decidable (Covers capacity s x) :=
  inferInstanceAs (Decidable (_ ∧ _))

/-- The byte that the last store to cover an address has there; zero, if there was none. -/
def lastByte (capacity : Nat) (stores : List (Int × Word)) (x : Nat) : UInt8 :=
  match (stores.filter fun s => Covers capacity s x).getLast? with
  | some (a, w) => w.byteAt (x - a.toNat)
  | none => 0

theorem replay_append (m : Ram) (stores more : List (Int × Word)) :
    m.replay (stores ++ more) = (m.replay stores).replay more := List.foldl_append

theorem capacity_attempt (m : Ram) (a : Int) (w : Word) :
    (m.attempt a w).capacity = m.capacity := by
  unfold attempt
  split
  · rename_i h
    exact capacity_store h
  · rfl

theorem capacity_replay (m : Ram) (stores : List (Int × Word)) :
    (m.replay stores).capacity = m.capacity := by
  induction stores generalizing m with
  | nil => rfl
  | cons s stores ih => exact (ih _).trans (m.capacity_attempt s.1 s.2)

theorem byte_attempt (m : Ram) (s : Int × Word) (x : Nat) :
    (m.attempt s.1 s.2).byte x =
      if Covers m.capacity s x then s.2.byteAt (x - s.1.toNat) else m.byte x := by
  unfold attempt
  by_cases hfits : m.fits s.1 = true
  · have hstore := store_of_fits hfits s.2
    have hcovers : Covers m.capacity s x ↔ s.1 ≤ x ∧ x < s.1 + 8 :=
      and_iff_right (fits_iff.mp hfits)
    simp only [hstore, byte_store hstore, hcovers]
  · have hcovers : ¬ Covers m.capacity s x := fun h => hfits (fits_iff.mpr h.1)
    simp only [store, if_neg hfits, if_neg hcovers]

theorem lastByte_concat (capacity : Nat) (stores : List (Int × Word)) (s : Int × Word) (x : Nat) :
    lastByte capacity (stores ++ [s]) x =
      if Covers capacity s x then s.2.byteAt (x - s.1.toNat) else lastByte capacity stores x := by
  unfold lastByte
  by_cases h : Covers capacity s x
  · simp [List.filter_append, h]
  · simp [List.filter_append, h]

/-- The last store that covers an address decides the byte there. -/
theorem byte_replay (capacity : Nat) (stores : List (Int × Word)) (x : Nat) :
    ((zero capacity).replay stores).byte x = lastByte capacity stores x := by
  -- The last store decides, so the history is taken apart from its end.
  induction stores using List.reverseRecOn with
  | nil => exact byte_zero capacity x
  | append_singleton stores s ih =>
    have hcapacity : ((zero capacity).replay stores).capacity = capacity :=
      capacity_replay _ _
    rw [replay_append, lastByte_concat, ← ih]
    have hlast := byte_attempt ((zero capacity).replay stores) s x
    rw [hcapacity] at hlast
    exact hlast

/-- What can be done with memory after any history of stores, at any address. Where a word has room,
a store succeeds, and a load yields the word whose bytes the history tells; elsewhere both fail and
nothing changes. With the sums of a machine whose sizes have 64 bits the results are the same. -/
theorem load_replay (capacity : Nat) (stores : List (Int × Word)) (a : Int) :
    let m := (zero capacity).replay stores
    m.capacity = capacity ∧
      (0 ≤ a ∧ a + 8 ≤ capacity →
        (∃ w, m.load a = .ok w) ∧
        (∀ w, m.load a = .ok w ↔
          ∀ i < 8, w.byteAt i = lastByte capacity stores (a.toNat + i)) ∧
        ∀ w, ∃ n, m.store a w = .ok n ∧ n = (zero capacity).replay (stores ++ [(a, w)])) ∧
      (¬ (0 ≤ a ∧ a + 8 ≤ capacity) →
        m.load a = .error .invalidRamAddress ∧
        ∀ w, m.store a w = .error .invalidRamAddress ∧
          (zero capacity).replay (stores ++ [(a, w)]) = m) ∧
      (capacity < 2 ^ 64 →
        m.load? a = some (m.load a) ∧ ∀ w, m.store? a w = some (m.store a w)) := by
  intro m
  have hcapacity : m.capacity = capacity := capacity_replay _ _
  have hreplay : ∀ w, (zero capacity).replay (stores ++ [(a, w)]) = m.attempt a w :=
    fun w => replay_append _ _ _
  refine ⟨hcapacity, ?_, ?_, ?_⟩
  · intro hin
    rw [← hcapacity, ← fits_iff] at hin
    have hload := load_of_fits hin
    have hbytes : ∀ i < 8, (m.word a.toNat).byteAt i = lastByte capacity stores (a.toNat + i) :=
      fun i hi => (m.byteAt_word a.toNat hi).trans (byte_replay capacity stores _)
    refine ⟨⟨_, hload⟩, ?_, ?_⟩
    · intro w
      rw [hload, Except.ok.injEq]
      constructor
      · rintro rfl
        exact hbytes
      · intro hw
        exact Word.eq_of_byteAt fun i hi => (hbytes i hi).trans (hw i hi).symm
    · intro w
      refine ⟨_, store_of_fits hin w, ?_⟩
      simp only [hreplay, attempt, store_of_fits hin]
  · intro hout
    rw [← hcapacity, ← fits_iff] at hout
    refine ⟨if_neg hout, ?_⟩
    intro w
    have hstore : m.store a w = .error .invalidRamAddress := if_neg hout
    refine ⟨hstore, ?_⟩
    simp only [hreplay, attempt, hstore]
  · intro hsize
    rw [← hcapacity] at hsize
    exact ⟨load?_eq hsize, store?_eq hsize⟩

/-- A NaN whose upper half is overwritten by a second word; a third one has no room. -/
theorem load_replay_overlap :
    let m := (zero 32).replay [(3, ⟨0x7ff4123456789abc⟩), (7, ⟨0x1111111111111111⟩), (25, .zero)]
    m.load 3 = .ok ⟨0x1111111156789abc⟩ ∧ m.load 25 = .error .invalidRamAddress := by
  intro m
  obtain ⟨-, hin, -⟩ :=
    load_replay 32 [(3, ⟨0x7ff4123456789abc⟩), (7, ⟨0x1111111111111111⟩), (25, .zero)] 3
  obtain ⟨-, -, hout, -⟩ :=
    load_replay 32 [(3, ⟨0x7ff4123456789abc⟩), (7, ⟨0x1111111111111111⟩), (25, .zero)] 25
  obtain ⟨-, hload, -⟩ := hin (by decide)
  exact ⟨(hload _).mpr (by decide +kernel), (hout (by decide)).1⟩

end Ram

end StackMachine
