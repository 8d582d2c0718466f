import StackMachine.Text.Utf8

/-!
# StackMachine.Proofs.Text.Decoding

Cutting bytes before they are decoded, and decoding what was encoded.

* `Utf8.lossy_ascii`: bytes can be cut at every ASCII byte and decoded piece by piece. A character
  that the cut leaves unfinished is as malformed as it was before.
* `Utf8.Begins`: the first byte of a longer character, with the bounds of the byte after it.
* `Utf8.decodeFrom_encodeChar`: the bytes of a character are decoded to it, whatever follows.
* `Utf8.lossy_encode`: decoding undoes encoding.
* `Utf8.size_toList`: the size of a text in bytes.
-/

namespace StackMachine

namespace Utf8

theorem decodeFrom_cons (p : Option Pending) (b : UInt8) (bs : List UInt8) :
    decodeFrom p (b :: bs) = (feed p b).1 ++ decodeFrom (feed p b).2 bs := by
  cases p <;> rfl

section Ascii

variable {b : UInt8} (bs cs : List UInt8)

/-- Up to an ASCII byte, and from behind it on, where it makes no difference what was pending. -/
theorem decodeFrom_ascii (p : Option Pending) (h : b.toNat < 0x80) :
    decodeFrom p (bs ++ b :: cs) =
      decodeFrom p bs ++ some (Char.ofNat b.toNat) :: decodeFrom none cs := by
  induction bs generalizing p with
  | nil =>
    rw [List.nil_append, decodeFrom_cons, feed_ascii p h]
    cases p with
    | none =>
      simp only [feed, start, h, if_true]
      rfl
    | some q =>
      have hlow : ¬ q.low ≤ b := by
        have hq := q.low_ge
        rw [UInt8.le_iff_toNat_le]
        omega
      simp only [feed, start, h, hlow, if_true]
      rfl
  | cons a as ih =>
    rw [List.cons_append, decodeFrom_cons, decodeFrom_cons, ih, List.append_assoc]

theorem lossy_ascii (h : b.toNat < 0x80) :
    lossy (bs ++ b :: cs) = lossy bs ++ Char.ofNat b.toNat :: lossy cs := by
  rw [lossy, decode, decodeFrom_ascii bs cs none h, List.map_append, List.map_cons]
  rfl

end Ascii

section Encode

variable (rest : List UInt8)

section Tail

variable {m : Nat} (hm : m < 64)

include hm

theorem toNat_tail : (UInt8.ofNat (m + 128)).toNat = m + 128 := by
  rw [UInt8.toNat_ofNat']
  omega

theorem le_tail {low : UInt8} : low ≤ UInt8.ofNat (m + 128) ↔ low.toNat ≤ m + 128 := by
  rw [UInt8.le_iff_toNat_le, toNat_tail hm]

theorem tail_le {high : UInt8} : UInt8.ofNat (m + 128) ≤ high ↔ m + 128 ≤ high.toNat := by
  rw [UInt8.le_iff_toNat_le, toNat_tail hm]

theorem decodeFrom_last {p : Pending} (howed : p.owed = 1) (hlow : p.low.toNat ≤ m + 128)
    (hhigh : m + 128 ≤ p.high.toNat) :
    decodeFrom (some p) (UInt8.ofNat (m + 128) :: rest) =
      some (Char.ofNat (64 * p.code + m)) :: decodeFrom none rest := by
  have hin : (p.low ≤ UInt8.ofNat (m + 128) && UInt8.ofNat (m + 128) ≤ p.high) = true := by
    simp only [Bool.and_eq_true, decide_eq_true_eq]
    exact ⟨(le_tail hm).mpr hlow, (tail_le hm).mpr hhigh⟩
  rw [decodeFrom_cons]
  simp only [feed, hin, howed, Nat.le_refl, if_true, toNat_tail hm, Nat.add_sub_cancel]
  rfl

theorem decodeFrom_more {p : Pending} {owed : Nat} (howed : p.owed = owed + 2)
    (hlow : p.low.toNat ≤ m + 128) (hhigh : m + 128 ≤ p.high.toNat) :
    decodeFrom (some p) (UInt8.ofNat (m + 128) :: rest) =
      decodeFrom (some (.owing (owed + 1) 0x80 0xbf (64 * p.code + m))) rest := by
  have hin : (p.low ≤ UInt8.ofNat (m + 128) && UInt8.ofNat (m + 128) ≤ p.high) = true := by
    simp only [Bool.and_eq_true, decide_eq_true_eq]
    exact ⟨(le_tail hm).mpr hlow, (tail_le hm).mpr hhigh⟩
  have hmany : ¬ owed + 2 ≤ 1 := by omega
  rw [decodeFrom_cons]
  simp only [feed, hin, howed, hmany, if_true, if_false, toNat_tail hm, Nat.add_sub_cancel]
  rfl

theorem decodeFrom_last_tail (code : Nat) :
    decodeFrom (some (.owing 1 0x80 0xbf code)) (UInt8.ofNat (m + 128) :: rest) =
      some (Char.ofNat (64 * code + m)) :: decodeFrom none rest :=
  decodeFrom_last rest hm rfl (Nat.le_add_left 128 m)
    (Nat.add_le_add_right (Nat.le_of_lt_succ hm) 128)

theorem decodeFrom_more_tail (owed code : Nat) :
    decodeFrom (some (.owing (owed + 2) 0x80 0xbf code)) (UInt8.ofNat (m + 128) :: rest) =
      decodeFrom (some (.owing (owed + 1) 0x80 0xbf (64 * code + m))) rest :=
  decodeFrom_more rest hm rfl (Nat.le_add_left 128 m)
    (Nat.add_le_add_right (Nat.le_of_lt_succ hm) 128)

end Tail

/-- A first byte that begins a longer character, with the bounds of the byte after it. -/
structure Begins (b : UInt8) (p : Pending) (owed code low high : Nat) : Prop where
  start : start b = ([], some p)
  owed : p.owed = owed
  code : p.code = code
  low : p.low.toNat = low
  high : p.high.toNat = high

theorem Begins.decode {b : UInt8} {p : Pending} {owed code low high : Nat}
    (h : Begins b p owed code low high) :
    decodeFrom none (b :: rest) = decodeFrom (some p) rest := by
  rw [decodeFrom_cons, feed, h.start, List.nil_append]

theorem exists_begins {b : UInt8} {owed code low high : Nat}
    (h : (Utf8.start b).1 = [] ∧ (Utf8.start b).2.any fun p =>
      p.owed == owed && p.code == code && p.low.toNat == low && p.high.toNat == high) :
    ∃ p, Begins b p owed code low high := by
  obtain ⟨hnone, hsome⟩ := h
  cases hp : (Utf8.start b).2 with
  | none =>
    rw [hp] at hsome
    cases hsome
  | some p =>
    simp only [hp, Option.any_some, Bool.and_eq_true, beq_iff_eq] at hsome
    obtain ⟨⟨⟨howed, hcode⟩, hlow⟩, hhigh⟩ := hsome
    exact ⟨p, Prod.ext hnone hp, howed, hcode, hlow, hhigh⟩

/-- Two bytes begin with one of thirty bytes; the two below them would spell a shorter character. -/
theorem begins_two {n : Nat} (hlow : 2 ≤ n) (hhigh : n < 32) :
    ∃ p, Begins (UInt8.ofNat (n + 192)) p 1 n 0x80 0xbf := by
  refine exists_begins ?_
  have hall : ∀ n : Fin 32, 2 ≤ n.val → (Utf8.start (UInt8.ofNat (n + 192))).1 = [] ∧
      (Utf8.start (UInt8.ofNat (n + 192))).2.any fun p =>
        p.owed == 1 && p.code == n.val && p.low.toNat == 0x80 && p.high.toNat == 0xbf := by
    decide
  exact hall ⟨n, hhigh⟩ hlow

/-- No shorter character is spelled with three bytes, and no surrogate. -/
theorem begins_three {n : Nat} (h : n < 16) :
    ∃ p, Begins (UInt8.ofNat (n + 224)) p 2 n (if n = 0 then 0xa0 else 0x80)
      (if n = 13 then 0x9f else 0xbf) := by
  refine exists_begins ?_
  have hall : ∀ n : Fin 16, (Utf8.start (UInt8.ofNat (n + 224))).1 = [] ∧
      (Utf8.start (UInt8.ofNat (n + 224))).2.any fun p =>
        p.owed == 2 && p.code == n.val && p.low.toNat == (if n.val = 0 then 0xa0 else 0x80) &&
          p.high.toNat == (if n.val = 13 then 0x9f else 0xbf) := by
    decide
  exact hall ⟨n, h⟩

/-- No shorter character is spelled with four bytes, and none beyond the last. -/
theorem begins_four {n : Nat} (h : n < 5) :
    ∃ p, Begins (UInt8.ofNat (n + 240)) p 3 n (if n = 0 then 0x90 else 0x80)
      (if n = 4 then 0x8f else 0xbf) := by
  refine exists_begins ?_
  have hall : ∀ n : Fin 5, (Utf8.start (UInt8.ofNat (n + 240))).1 = [] ∧
      (Utf8.start (UInt8.ofNat (n + 240))).2.any fun p =>
        p.owed == 3 && p.code == n.val && p.low.toNat == (if n.val = 0 then 0x90 else 0x80) &&
          p.high.toNat == (if n.val = 4 then 0x8f else 0xbf) := by
    decide
  exact hall ⟨n, h⟩

theorem decodeFrom_one {v : Nat} (h : v < 0x80) :
    decodeFrom none (UInt8.ofNat v :: rest) = some (Char.ofNat v) :: decodeFrom none rest := by
  have hv : (UInt8.ofNat v).toNat = v := by
    rw [UInt8.toNat_ofNat']
    omega
  have hcut := decodeFrom_ascii [] rest none (b := UInt8.ofNat v) (by omega)
  rwa [hv] at hcut

theorem decodeFrom_two {v : Nat} (hlow : 0x80 ≤ v) (hhigh : v < 0x800) :
    decodeFrom none (UInt8.ofNat (v / 64 + 192) :: UInt8.ofNat (v % 64 + 128) :: rest) =
      some (Char.ofNat v) :: decodeFrom none rest := by
  obtain ⟨p, hp⟩ := begins_two (n := v / 64) (by omega) (by omega)
  rw [hp.decode, decodeFrom_last _ (by omega) hp.owed (by rw [hp.low]; omega)
    (by rw [hp.high]; omega), hp.code, Nat.div_add_mod]

theorem decodeFrom_three {v : Nat} (hlow : 0x800 ≤ v) (hhigh : v < 0x10000)
    (hvalid : v < 0xd800 ∨ 0xdfff < v) :
    decodeFrom none (UInt8.ofNat (v / 4096 + 224) :: UInt8.ofNat (v / 64 % 64 + 128) ::
        UInt8.ofNat (v % 64 + 128) :: rest) =
      some (Char.ofNat v) :: decodeFrom none rest := by
  obtain ⟨p, hp⟩ := begins_three (n := v / 4096) (by omega)
  have hcode : 64 * (64 * (v / 4096) + v / 64 % 64) + v % 64 = v := by omega
  rw [hp.decode, decodeFrom_more _ (by omega) hp.owed (by rw [hp.low]; split <;> omega)
    (by rw [hp.high]; split <;> omega), decodeFrom_last_tail _ (by omega), hp.code, hcode]

theorem decodeFrom_four {v : Nat} (hlow : 0x10000 ≤ v) (hhigh : v < 0x110000) :
    decodeFrom none (UInt8.ofNat (v / 262144 + 240) :: UInt8.ofNat (v / 4096 % 64 + 128) ::
        UInt8.ofNat (v / 64 % 64 + 128) :: UInt8.ofNat (v % 64 + 128) :: rest) =
      some (Char.ofNat v) :: decodeFrom none rest := by
  obtain ⟨p, hp⟩ := begins_four (n := v / 262144) (by omega)
  have hcode : 64 * (64 * (64 * (v / 262144) + v / 4096 % 64) + v / 64 % 64) + v % 64 = v := by
    omega
  rw [hp.decode, decodeFrom_more _ (by omega) hp.owed (by rw [hp.low]; split <;> omega)
    (by rw [hp.high]; split <;> omega), decodeFrom_more_tail _ (by omega),
    decodeFrom_last_tail _ (by omega), hp.code, hcode]

theorem encodeChar_eq (c : Char) : String.utf8EncodeChar c =
    if c.toNat ≤ 127 then [UInt8.ofNat c.toNat]
    else if c.toNat ≤ 2047 then
      [UInt8.ofNat (c.toNat / 64 % 32 + 192), UInt8.ofNat (c.toNat % 64 + 128)]
    else if c.toNat ≤ 65535 then
      [UInt8.ofNat (c.toNat / 4096 % 16 + 224), UInt8.ofNat (c.toNat / 64 % 64 + 128),
        UInt8.ofNat (c.toNat % 64 + 128)]
    else
      [UInt8.ofNat (c.toNat / 262144 % 8 + 240), UInt8.ofNat (c.toNat / 4096 % 64 + 128),
        UInt8.ofNat (c.toNat / 64 % 64 + 128), UInt8.ofNat (c.toNat % 64 + 128)] := rfl

theorem decodeFrom_encodeChar (c : Char) :
    decodeFrom none (String.utf8EncodeChar c ++ rest) = some c :: decodeFrom none rest := by
  have hvalid : c.toNat < 0xd800 ∨ (0xdfff < c.toNat ∧ c.toNat < 0x110000) := c.valid
  have hc : Char.ofNat c.toNat = c := Char.ofNat_toNat c
  rw [encodeChar_eq]
  generalize c.toNat = v at hvalid hc
  subst hc
  split
  · exact decodeFrom_one rest (by omega)
  · split
    · have hfirst : v / 64 % 32 = v / 64 := by omega
      rw [hfirst]
      exact decodeFrom_two rest (by omega) (by omega)
    · split
      · have hfirst : v / 4096 % 16 = v / 4096 := by omega
        rw [hfirst]
        exact decodeFrom_three rest (by omega) (by omega) (by omega)
      · have hfirst : v / 262144 % 8 = v / 262144 := by omega
        rw [hfirst]
        exact decodeFrom_four rest (by omega) (by omega)

theorem decodeFrom_encode (cs : List Char) :
    decodeFrom none (cs.flatMap String.utf8EncodeChar) = cs.map some := by
  induction cs with
  | nil => rfl
  | cons c cs ih => rw [List.flatMap_cons, decodeFrom_encodeChar, ih, List.map_cons]

end Encode

theorem size_toList (s : String) : size s.toList = s.utf8ByteSize := by
  have hsize : ∀ cs, size cs = (String.ofList cs).utf8ByteSize := by
    intro cs
    induction cs with
    | nil => rfl
    | cons c cs ih =>
      rw [size_cons, ih, String.ofList_cons, String.utf8ByteSize_append,
        String.utf8ByteSize_singleton]
  rw [hsize, String.ofList_toList]

theorem toList_loop (bs : ByteArray) (i : Nat) (r : List UInt8) :
    ByteArray.toList.loop bs i r = r.reverse ++ bs.data.toList.drop i := by
  fun_induction ByteArray.toList.loop bs i r with
  | case1 i r h ih =>
    have hi : i < bs.data.toList.length := h
    have hget : bs.get! i = bs.data.toList[i] := getElem!_pos bs.data i h
    rw [ih, List.drop_eq_getElem_cons hi, List.reverse_cons, List.append_assoc, hget]
    rfl
  | case2 i r h =>
    have hi : bs.data.toList.length ≤ i := Nat.le_of_not_lt h
    rw [List.drop_eq_nil_of_le hi, List.append_nil]

theorem encode_eq (s : String) : encode s = s.toList.flatMap String.utf8EncodeChar := by
  have hbytes : s.toUTF8 = (s.toList.flatMap String.utf8EncodeChar).toByteArray :=
    String.utf8Encode_toList.symm
  rw [encode, hbytes, ByteArray.toList, toList_loop, List.toList_data_toByteArray]
  rfl

theorem lossy_encode (s : String) : lossy (encode s) = s.toList := by
  rw [lossy, decode, encode_eq, decodeFrom_encode, List.map_map]
  exact List.map_id _

end Utf8

end StackMachine
