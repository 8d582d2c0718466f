import StackMachine.Proofs.Text.Decoding

/-!
# StackMachine.Proofs.Text.Strict

Bytes without any malformed stretch are the encoding of one text.

* `Utf8.exists_last`, `Utf8.exists_more`: what a pending character was completed or continued by.
* `Utf8.Lead`: what a byte at the start of a character is.
* `Utf8.encodeChar_two`, `Utf8.encodeChar_three`, `Utf8.encodeChar_four`: the bytes of a character,
  from the bits they hold.
* `Utf8.exists_first`: how the bytes begin when a character is decoded first.
* `Utf8.decodeFrom_eq_cons_iff`: a character is decoded first from its own bytes and from no others.
* `Utf8.strict?_eq_some_iff`: a text is decoded strictly from its encoding and from nothing else.
-/

namespace StackMachine
namespace Utf8

section Pending

variable {p : Pending} {bs : List UInt8} {c : Char} {rest : List (Option Char)}

/-- The next byte of a pending character that is decoded first, by the bits it adds. -/
theorem exists_tail (hhigh : p.high.toNat < 0xc0)
    (h : decodeFrom (some p) bs = some c :: rest) :
    ∃ m tail, m < 64 ∧ bs = UInt8.ofNat (m + 128) :: tail ∧
      p.low.toNat ≤ m + 128 ∧ m + 128 ≤ p.high.toNat := by
  cases bs with
  | nil => cases h
  | cons b tail =>
    by_cases hin : (p.low ≤ b && b ≤ p.high) = true
    · have hbounds := hin
      simp only [Bool.and_eq_true, decide_eq_true_eq, UInt8.le_iff_toNat_le] at hbounds
      have hlow := p.low_ge
      have hb : UInt8.ofNat (b.toNat - 128 + 128) = b := by
        rw [Nat.sub_add_cancel (by omega), UInt8.ofNat_toNat]
      exact ⟨b.toNat - 128, tail, by omega, by rw [hb], by omega, by omega⟩
    · rw [decodeFrom_cons] at h
      simp only [feed, hin, Bool.false_eq_true, if_false, List.cons_append, List.cons.injEq] at h
      cases h.1

theorem exists_last (howed : p.owed = 1) (hhigh : p.high.toNat < 0xc0)
    (h : decodeFrom (some p) bs = some c :: rest) :
    ∃ m tail, m < 64 ∧ bs = UInt8.ofNat (m + 128) :: tail ∧ p.low.toNat ≤ m + 128 ∧
      m + 128 ≤ p.high.toNat ∧ c = Char.ofNat (64 * p.code + m) ∧ decodeFrom none tail = rest := by
  obtain ⟨m, tail, hm, rfl, hlow, hle⟩ := exists_tail hhigh h
  rw [decodeFrom_last tail hm howed hlow hle, List.cons.injEq, Option.some.injEq] at h
  exact ⟨m, tail, hm, rfl, hlow, hle, h.1.symm, h.2⟩

theorem exists_more {owed : Nat} (howed : p.owed = owed + 2) (hhigh : p.high.toNat < 0xc0)
    (h : decodeFrom (some p) bs = some c :: rest) :
    ∃ m tail, m < 64 ∧ bs = UInt8.ofNat (m + 128) :: tail ∧ p.low.toNat ≤ m + 128 ∧
      m + 128 ≤ p.high.toNat ∧
      decodeFrom (some (.owing (owed + 1) 0x80 0xbf (64 * p.code + m))) tail = some c :: rest := by
  obtain ⟨m, tail, hm, rfl, hlow, hle⟩ := exists_tail hhigh h
  rw [decodeFrom_more tail hm howed hlow hle] at h
  exact ⟨m, tail, hm, rfl, hlow, hle, h⟩

theorem exists_last_tail {code : Nat}
    (h : decodeFrom (some (.owing 1 0x80 0xbf code)) bs = some c :: rest) :
    ∃ m tail, m < 64 ∧ bs = UInt8.ofNat (m + 128) :: tail ∧ c = Char.ofNat (64 * code + m) ∧
      decodeFrom none tail = rest := by
  have hbound : (0xbf : UInt8).toNat < 0xc0 := by decide
  obtain ⟨m, tail, hm, hbs, -, -, hc, hrest⟩ := exists_last rfl hbound h
  exact ⟨m, tail, hm, hbs, hc, hrest⟩

theorem exists_more_tail {owed code : Nat}
    (h : decodeFrom (some (.owing (owed + 2) 0x80 0xbf code)) bs = some c :: rest) :
    ∃ m tail, m < 64 ∧ bs = UInt8.ofNat (m + 128) :: tail ∧
      decodeFrom (some (.owing (owed + 1) 0x80 0xbf (64 * code + m))) tail = some c :: rest := by
  have hbound : (0xbf : UInt8).toNat < 0xc0 := by decide
  obtain ⟨m, tail, hm, hbs, -, -, h⟩ := exists_more rfl hbound h
  exact ⟨m, tail, hm, hbs, h⟩

end Pending

/-- What a byte at the start of a character is. -/
inductive Lead (b : UInt8) : Prop where
  | one : b.toNat < 0x80 → Lead b
  | two {n : Nat} : 2 ≤ n → n < 32 → b = UInt8.ofNat (n + 192) → Lead b
  | three {n : Nat} : n < 16 → b = UInt8.ofNat (n + 224) → Lead b
  | four {n : Nat} : n < 5 → b = UInt8.ofNat (n + 240) → Lead b
  | malformed : start b = ([none], none) → Lead b

theorem lead (b : UInt8) : Lead b := by
  have hb : ∀ n, n ≤ b.toNat → b = UInt8.ofNat (b.toNat - n + n) := by
    intro n hn
    rw [Nat.sub_add_cancel hn, UInt8.ofNat_toNat]
  by_cases h1 : b.toNat < 0x80
  · exact .one h1
  by_cases h2 : 0xc2 ≤ b.toNat ∧ b.toNat < 0xe0
  · exact .two (n := b.toNat - 192) (by omega) (by omega) (hb 192 (by omega))
  by_cases h3 : 0xe0 ≤ b.toNat ∧ b.toNat < 0xf0
  · exact .three (by omega) (hb 224 (by omega))
  by_cases h4 : 0xf0 ≤ b.toNat ∧ b.toNat < 0xf5
  · exact .four (by omega) (hb 240 (by omega))
  · refine .malformed ?_
    have hout : (decide (0xc2 ≤ b.toNat) && decide (b.toNat ≤ 0xdf)) = false ∧
        (decide (0xe1 ≤ b.toNat) && decide (b.toNat ≤ 0xef)) = false ∧
        (decide (0xf1 ≤ b.toNat) && decide (b.toNat ≤ 0xf3)) = false ∧
        (b.toNat == 0xe0) = false ∧ (b.toNat == 0xed) = false ∧
        (b.toNat == 0xf0) = false ∧ (b.toNat == 0xf4) = false := by
      simp only [Bool.and_eq_false_iff, decide_eq_false_iff_not, beq_eq_false_iff_ne]
      omega
    simp only [start, h1, hout, Bool.false_eq_true, if_false]

theorem toNat_charOfNat {v : Nat} (h : v < 0xd800 ∨ (0xdfff < v ∧ v < 0x110000)) :
    (Char.ofNat v).toNat = v := by
  have hvalid : v.isValidChar := h
  rw [Char.ofNat, dif_pos hvalid]
  rfl

section EncodeChar

variable {n m k l : Nat}

theorem encodeChar_one (h : n < 0x80) :
    String.utf8EncodeChar (Char.ofNat n) = [UInt8.ofNat n] := by
  rw [encodeChar_eq, toNat_charOfNat (by omega), if_pos (by omega)]

theorem encodeChar_two (hlow : 2 ≤ n) (hhigh : n < 32) (hm : m < 64) :
    String.utf8EncodeChar (Char.ofNat (64 * n + m)) =
      [UInt8.ofNat (n + 192), UInt8.ofNat (m + 128)] := by
  have h1 : (64 * n + m) / 64 % 32 = n := by omega
  have h2 : (64 * n + m) % 64 = m := by omega
  rw [encodeChar_eq, toNat_charOfNat (by omega), if_neg (by omega), if_pos (by omega), h1, h2]

theorem encodeChar_three (hn : n < 16) (hlow : (if n = 0 then 0xa0 else 0x80) ≤ m + 128)
    (hhigh : m + 128 ≤ if n = 13 then 0x9f else 0xbf) (hk : k < 64) :
    String.utf8EncodeChar (Char.ofNat (64 * (64 * n + m) + k)) =
      [UInt8.ofNat (n + 224), UInt8.ofNat (m + 128), UInt8.ofNat (k + 128)] := by
  have hm : m < 64 := by split at hhigh <;> omega
  have hmin : 0x800 ≤ 64 * (64 * n + m) + k := by split at hlow <;> omega
  have hvalid : 64 * (64 * n + m) + k < 0xd800 ∨ 0xdfff < 64 * (64 * n + m) + k := by
    split at hhigh <;> omega
  have h1 : (64 * (64 * n + m) + k) / 4096 % 16 = n := by omega
  have h2 : (64 * (64 * n + m) + k) / 64 % 64 = m := by omega
  have h3 : (64 * (64 * n + m) + k) % 64 = k := by omega
  rw [encodeChar_eq, toNat_charOfNat (by omega), if_neg (by omega), if_neg (by omega),
    if_pos (by omega), h1, h2, h3]

theorem encodeChar_four (hn : n < 5) (hlow : (if n = 0 then 0x90 else 0x80) ≤ m + 128)
    (hhigh : m + 128 ≤ if n = 4 then 0x8f else 0xbf) (hk : k < 64) (hl : l < 64) :
    String.utf8EncodeChar (Char.ofNat (64 * (64 * (64 * n + m) + k) + l)) =
      [UInt8.ofNat (n + 240), UInt8.ofNat (m + 128), UInt8.ofNat (k + 128),
        UInt8.ofNat (l + 128)] := by
  have hm : m < 64 := by split at hhigh <;> omega
  have hmin : 0x10000 ≤ 64 * (64 * (64 * n + m) + k) + l := by split at hlow <;> omega
  have hmax : 64 * (64 * (64 * n + m) + k) + l < 0x110000 := by split at hhigh <;> omega
  have h1 : (64 * (64 * (64 * n + m) + k) + l) / 262144 % 8 = n := by omega
  have h2 : (64 * (64 * (64 * n + m) + k) + l) / 4096 % 64 = m := by omega
  have h3 : (64 * (64 * (64 * n + m) + k) + l) / 64 % 64 = k := by omega
  have h4 : (64 * (64 * (64 * n + m) + k) + l) % 64 = l := by omega
  rw [encodeChar_eq, toNat_charOfNat (by omega), if_neg (by omega), if_neg (by omega),
    if_neg (by omega), h1, h2, h3, h4]

end EncodeChar

theorem exists_first {bs : List UInt8} {c : Char} {rest : List (Option Char)}
    (h : decodeFrom none bs = some c :: rest) :
    ∃ tail, bs = String.utf8EncodeChar c ++ tail ∧ decodeFrom none tail = rest := by
  cases bs with
  | nil => cases h
  | cons b bs =>
    cases lead b with
    | one hb =>
      have hb' : UInt8.ofNat b.toNat = b := UInt8.ofNat_toNat
      rw [← hb', decodeFrom_one bs hb, List.cons.injEq, Option.some.injEq] at h
      obtain ⟨rfl, hrest⟩ := h
      refine ⟨bs, ?_, hrest⟩
      rw [encodeChar_one hb, hb', List.singleton_append]
    | two hlow hhigh hb =>
      obtain ⟨p, hp⟩ := begins_two hlow hhigh
      subst hb
      rw [hp.decode] at h
      obtain ⟨m, tail, hm, rfl, -, -, rfl, hrest⟩ :=
        exists_last hp.owed (by rw [hp.high]; omega) h
      refine ⟨tail, ?_, hrest⟩
      rw [hp.code, encodeChar_two hlow hhigh hm]
      rfl
    | three hn hb =>
      obtain ⟨p, hp⟩ := begins_three hn
      subst hb
      rw [hp.decode] at h
      obtain ⟨m, bs, hm, rfl, hlow, hhigh, hlast⟩ :=
        exists_more hp.owed (by rw [hp.high]; split <;> omega) h
      obtain ⟨k, tail, hk, rfl, rfl, hrest⟩ := exists_last_tail hlast
      refine ⟨tail, ?_, hrest⟩
      rw [hp.code, encodeChar_three hn (hp.low ▸ hlow) (hp.high ▸ hhigh) hk]
      rfl
    | four hn hb =>
      obtain ⟨p, hp⟩ := begins_four hn
      subst hb
      rw [hp.decode] at h
      obtain ⟨m, bs, hm, rfl, hlow, hhigh, hmore⟩ :=
        exists_more hp.owed (by rw [hp.high]; split <;> omega) h
      obtain ⟨k, bs, hk, rfl, hlast⟩ := exists_more_tail hmore
      obtain ⟨l, tail, hl, rfl, rfl, hrest⟩ := exists_last_tail hlast
      refine ⟨tail, ?_, hrest⟩
      rw [hp.code, encodeChar_four hn (hp.low ▸ hlow) (hp.high ▸ hhigh) hk hl]
      rfl
    | malformed hb =>
      rw [decodeFrom_cons, feed, hb, List.singleton_append, List.cons.injEq] at h
      cases h.1

theorem decodeFrom_eq_cons_iff {bs : List UInt8} {c : Char} {rest : List (Option Char)} :
    decodeFrom none bs = some c :: rest ↔
      ∃ tail, bs = String.utf8EncodeChar c ++ tail ∧ decodeFrom none tail = rest := by
  constructor
  · exact exists_first
  · rintro ⟨tail, rfl, rfl⟩
    exact decodeFrom_encodeChar tail c

theorem decodeFrom_pending_ne_nil (p : Pending) (bs : List UInt8) :
    decodeFrom (some p) bs ≠ [] := by
  induction bs generalizing p with
  | nil => simp [decodeFrom]
  | cons b bs ih =>
    rw [decodeFrom_cons, feed]
    split
    · split
      · simp
      · exact ih _
    · simp

theorem decode_eq_nil_iff {bs : List UInt8} : decode bs = [] ↔ bs = [] := by
  constructor
  · intro h
    cases bs with
    | nil => rfl
    | cons b bs =>
      rw [decode, decodeFrom_cons, feed] at h
      cases lead b with
      | one hb => simp [start, hb] at h
      | two hlow hhigh hb =>
        obtain ⟨p, hp⟩ := begins_two hlow hhigh
        rw [hb, hp.start] at h
        exact absurd h (decodeFrom_pending_ne_nil p bs)
      | three hn hb =>
        obtain ⟨p, hp⟩ := begins_three hn
        rw [hb, hp.start] at h
        exact absurd h (decodeFrom_pending_ne_nil p bs)
      | four hn hb =>
        obtain ⟨p, hp⟩ := begins_four hn
        rw [hb, hp.start] at h
        exact absurd h (decodeFrom_pending_ne_nil p bs)
      | malformed hb => simp [hb] at h
  · rintro rfl
    rfl

theorem decode_eq_map_iff {bs : List UInt8} {cs : List Char} :
    decode bs = cs.map some ↔ bs = cs.flatMap String.utf8EncodeChar := by
  induction cs generalizing bs with
  | nil => exact decode_eq_nil_iff
  | cons c cs ih =>
    rw [decode, List.map_cons, decodeFrom_eq_cons_iff, List.flatMap_cons]
    constructor
    · rintro ⟨tail, rfl, htail⟩
      rw [ih.mp htail]
    · rintro rfl
      exact ⟨_, rfl, ih.mpr rfl⟩

theorem mapM_id_eq_some_iff {α : Type} {l : List (Option α)} {as : List α} :
    l.mapM id = some as ↔ l = as.map some := by
  induction l generalizing as with
  | nil => cases as <;> simp
  | cons x l ih =>
    cases x with
    | none => cases as <;> simp
    | some a =>
      cases as with
      | nil => simp [Option.bind_eq_some_iff]
      | cons b as =>
        simp only [List.mapM_cons, id_eq, Option.bind_eq_bind, Option.bind_some,
          Option.bind_eq_some_iff, ih, Option.pure_def, Option.some.injEq, List.map_cons,
          List.cons.injEq]
        constructor
        · rintro ⟨as, hl, rfl, rfl⟩
          exact ⟨rfl, hl⟩
        · rintro ⟨rfl, hl⟩
          exact ⟨as, hl, rfl, rfl⟩

theorem strict?_eq_some_iff {bs : List UInt8} {cs : List Char} :
    strict? bs = some cs ↔ bs = encode (String.ofList cs) := by
  rw [strict?, mapM_id_eq_some_iff, decode_eq_map_iff, encode_eq, String.toList_ofList]

theorem strict?_encode (s : String) : strict? (encode s) = some s.toList := by
  rw [strict?_eq_some_iff, String.ofList_toList]

theorem encode_injective {s t : String} (h : encode s = encode t) : s = t := by
  have hstrict := congrArg strict? h
  rwa [strict?_encode, strict?_encode, Option.some.injEq, String.toList_inj] at hstrict

end Utf8
end StackMachine
