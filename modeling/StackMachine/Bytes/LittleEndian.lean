/-!
# StackMachine.Bytes.LittleEndian

Numbers as fixed-width byte sequences, least significant byte first.

* `LittleEndian.encode`: the low `k` bytes of a number.
* `LittleEndian.decode`: the number a byte sequence stands for.
* `LittleEndian.decode_encode`: reading back yields the number modulo `256 ^ k`.
-/

namespace StackMachine
namespace LittleEndian

/-- The `k` low bytes of `n`, least significant first. -/
def encode : Nat → Nat → List UInt8
  | 0, _ => []
  | k + 1, n => UInt8.ofNat n :: encode k (n / 256)

def decode : List UInt8 → Nat
  | [] => 0
  | b :: bs => b.toNat + 256 * decode bs

@[simp] theorem length_encode (k n : Nat) : (encode k n).length = k := by
  induction k generalizing n with
  | zero => rfl
  | succ k ih => simp [encode, ih]

theorem decode_encode (k n : Nat) : decode (encode k n) = n % Nat.pow 256 k := by
  induction k generalizing n with
  | zero => exact (Nat.mod_one n).symm
  | succ k ih =>
    have h : n % Nat.pow 256 (k + 1) = n % 256 + 256 * (n / 256 % Nat.pow 256 k) := by
      rw [show Nat.pow 256 (k + 1) = 256 * Nat.pow 256 k from Nat.mul_comm _ _, Nat.mod_mul]
    simp only [encode, decode, ih, UInt8.toNat_ofNat']
    exact h.symm

theorem encode_decode (bs : List UInt8) : encode bs.length (decode bs) = bs := by
  induction bs with
  | nil => rfl
  | cons b bs ih =>
    have hb := b.toNat_lt
    have h₁ : (b.toNat + 256 * decode bs) / 256 = decode bs := by omega
    have h₂ : UInt8.ofNat (b.toNat + 256 * decode bs) = b := by
      apply UInt8.toNat_inj.mp
      simp only [UInt8.toNat_ofNat']
      omega
    simp [encode, decode, h₁, h₂, ih]

end LittleEndian
end StackMachine
