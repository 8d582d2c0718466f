import Mathlib.Data.List.Induction
import Mathlib.Data.List.TakeWhile
import Mathlib.Data.Nat.Digits.Defs
import StackMachine.Decimal.Literal

/-!
# StackMachine.Proofs.Decimal.Numeral

The written forms of whole numbers and of doubles, as grammars.

* `Decimal.Integer`: an optional sign and digits, with the number they stand for.
* `Decimal.Number`: digits with an optional point and an optional exponent.
* `Decimal.Literal`: what may be written for a double, with its bits.
* `signed?_eq_some_iff`, `scientific?_eq_some_iff`, `literal?_eq_some_iff`: the readers accept these
  forms and nothing else, and read what the forms say.

Digits count by their positions here, and the readers add them up from the left.
-/

namespace StackMachine
namespace Decimal

def Digits (ds : List Char) : Prop := ∀ d ∈ ds, '0' ≤ d ∧ d ≤ '9'

/-- The number that digits stand for, the last of them counting ones. -/
def positional (ds : List Char) : Nat := Nat.ofDigits 10 (ds.reverse.map digitValue)

inductive Sign : Bool → List Char → List Char → Prop where
  | minus {cs : List Char} : Sign true cs ('-' :: cs)
  | plus {cs : List Char} : Sign false cs ('+' :: cs)
  | none {cs : List Char} : Sign false cs cs

inductive Integer : List Char → Int → Prop where
  | mk {negative : Bool} {cs ds : List Char} : Sign negative ds cs → ds ≠ [] → Digits ds →
      Integer cs (if negative then -(positional ds : Int) else positional ds)

/-- Digits before and behind a point, which is missing only where no digit is behind it. -/
inductive Mantissa : List Char → List Char → List Char → Prop where
  | whole {whole : List Char} : Mantissa whole whole []
  | point {whole fraction : List Char} : Mantissa (whole ++ '.' :: fraction) whole fraction

inductive Exponent : List Char → Int → Prop where
  | absent : Exponent [] 0
  | present {c : Char} {cs : List Char} {n : Int} : c = 'e' ∨ c = 'E' → Integer cs n →
      Exponent (c :: cs) n

inductive Number : List Char → Scientific → Prop where
  | mk {text whole fraction tail : List Char} {e : Int} : Digits whole → Digits fraction →
      whole ++ fraction ≠ [] → Mantissa text whole fraction → Exponent tail e →
      Number (text ++ tail) ⟨positional (whole ++ fraction), e - fraction.length⟩

/-- What may follow the sign of a double, with the bits below the leading one. -/
inductive Unsigned : List Char → Nat → Prop where
  | infinity {cs : List Char} : cs.map Char.toLower = "inf".toList ∨
      cs.map Char.toLower = "infinity".toList → Unsigned cs infinityBits
  | nan {cs : List Char} : cs.map Char.toLower = "nan".toList → Unsigned cs 0x7ff8000000000000
  | number {cs : List Char} {x : Scientific} : Number cs x → Unsigned cs x.bits

inductive Literal : List Char → Word → Prop where
  | mk {negative : Bool} {cs unsigned : List Char} {bits : Nat} : Sign negative unsigned cs →
      Unsigned unsigned bits →
      Literal cs ⟨UInt64.ofNat (if negative then bits + Word.signBit else bits)⟩

section Digits

variable {c : Char} {ds cs : List Char}

theorem isDigit_iff : isDigit c = true ↔ '0' ≤ c ∧ c ≤ '9' := by
  simp [isDigit]

theorem digits_iff : Digits ds ↔ ∀ d ∈ ds, isDigit d = true := by
  simp [Digits, isDigit_iff]

theorem digits_nil : Digits [] := by
  intro d hd
  cases hd

theorem digits_takeWhile (cs : List Char) : Digits (cs.takeWhile isDigit) := by
  intro d hd
  exact isDigit_iff.mp (List.mem_takeWhile_imp hd)

theorem ne_of_isDigit {d : Char} (h : isDigit d = true) (hc : isDigit c = false) : d ≠ c := by
  rintro rfl
  rw [h] at hc
  cases hc

theorem toLower_of_isDigit (h : isDigit c = true) : c.toLower = c := by
  obtain ⟨hlow, hhigh⟩ := isDigit_iff.mp h
  refine dif_neg ?_
  rintro ⟨hupper, -⟩
  have hnine : c.toNat ≤ 57 := hhigh
  have hletter : 65 ≤ c.toNat := hupper
  omega

theorem value_eq_positional (ds : List Char) : value ds = positional ds := by
  induction ds using List.reverseRecOn with
  | nil => rfl
  | append_singleton ds d ih =>
    have hvalue : value (ds ++ [d]) = 10 * value ds + digitValue d := by
      simp [value]
    rw [hvalue, ih, positional, positional, List.reverse_append, List.reverse_singleton,
      List.singleton_append, List.map_cons, Nat.ofDigits_cons]
    exact Nat.add_comm _ _

theorem natural?_eq_some_iff_positional {n : Nat} :
    natural? ds = some n ↔ ds ≠ [] ∧ Digits ds ∧ positional ds = n := by
  rw [natural?_eq_some_iff, digits_iff, value_eq_positional]

end Digits

section Sign

variable {negative : Bool} {cs unsigned : List Char}

theorem sign_takeSign (cs : List Char) : Sign (takeSign cs).1 (takeSign cs).2 cs := by
  unfold takeSign
  split
  · exact .minus
  · exact .plus
  · exact .none

/-- Only one sign is taken off, so the text behind it must not begin with another one. -/
theorem takeSign_of_sign (h : Sign negative unsigned cs) (hminus : unsigned.head? ≠ some '-')
    (hplus : unsigned.head? ≠ some '+') : takeSign cs = (negative, unsigned) := by
  cases h with
  | minus => rfl
  | plus => rfl
  | none =>
    unfold takeSign
    split
    · exact absurd rfl hminus
    · exact absurd rfl hplus
    · rfl

theorem head?_ne_of_digits {ds : List Char} (h : Digits ds) {c : Char} (hc : isDigit c = false) :
    ds.head? ≠ some c := by
  intro hd
  have hmem : c ∈ ds := List.mem_of_head? hd
  exact ne_of_isDigit (isDigit_iff.mpr (h c hmem)) hc rfl

end Sign

theorem signed?_eq (cs : List Char) :
    signed? cs = (natural? (takeSign cs).2).map fun n : Nat =>
      if (takeSign cs).1 then -(n : Int) else n := by
  simp only [signed?]
  cases natural? (takeSign cs).2 <;> rfl

theorem signed?_eq_some_iff {cs : List Char} {n : Int} : signed? cs = some n ↔ Integer cs n := by
  constructor
  · intro h
    rw [signed?_eq] at h
    obtain ⟨m, hm, rfl⟩ := Option.map_eq_some_iff.mp h
    obtain ⟨hne, hds, rfl⟩ := natural?_eq_some_iff_positional.mp hm
    exact .mk (sign_takeSign cs) hne hds
  · rintro ⟨hsign, hne, hds⟩
    have htake := takeSign_of_sign hsign (head?_ne_of_digits hds (by decide))
      (head?_ne_of_digits hds (by decide))
    rw [signed?_eq, htake]
    simp only [natural?_eq_some_iff_positional.mpr ⟨hne, hds, rfl⟩]
    rfl

section Number

variable {whole fraction tail : List Char}

theorem exponent?_eq_some_iff {cs : List Char} {e : Int} :
    exponent? cs = some e ↔ Exponent cs e := by
  cases cs with
  | nil =>
    constructor
    · intro h
      cases h
      exact .absent
    · rintro ⟨⟩
      rfl
  | cons c cs =>
    simp only [exponent?]
    constructor
    · intro h
      split at h
      · rename_i hc
        exact .present (by simpa using hc) (signed?_eq_some_iff.mp h)
      · cases h
    · intro h
      cases h with
      | present hc hn =>
        rw [if_pos (by simpa using hc)]
        exact signed?_eq_some_iff.mpr hn

/-- Digits end where an exponent begins, and where the text ends. -/
theorem head?_of_exponent {e : Int} (h : Exponent tail e) :
    ∀ c, tail.head? = some c → isDigit c = false ∧ c ≠ '.' := by
  intro c hc
  cases h with
  | absent => cases hc
  | present he =>
    cases hc
    rcases he with rfl | rfl <;> decide

theorem takeWhile_digits (hd : Digits whole)
    (ht : ∀ c, tail.head? = some c → isDigit c = false) :
    (whole ++ tail).takeWhile isDigit = whole ∧ (whole ++ tail).dropWhile isDigit = tail := by
  have hwhole := digits_iff.mp hd
  rw [List.takeWhile_append_of_pos hwhole, List.dropWhile_append_of_pos hwhole]
  cases tail with
  | nil => simp
  | cons c cs =>
    have hc := ht c rfl
    simp [hc]

def compose? (whole fraction tail : List Char) : Option Scientific :=
  if whole ++ fraction = [] then none
  else (exponent? tail).map fun e => ⟨positional (whole ++ fraction), e - fraction.length⟩

theorem scientific?_of_point {cs rest : List Char} (h : cs.dropWhile isDigit = '.' :: rest) :
    scientific? cs =
      compose? (cs.takeWhile isDigit) (rest.takeWhile isDigit) (rest.dropWhile isDigit) := by
  simp only [scientific?, h, compose?, value_eq_positional, Bool.and_eq_true, List.isEmpty_iff,
    List.append_eq_nil_iff]

theorem scientific?_of_no_point {cs : List Char} (h : ∀ rest, cs.dropWhile isDigit ≠ '.' :: rest) :
    scientific? cs = compose? (cs.takeWhile isDigit) [] (cs.dropWhile isDigit) := by
  simp only [scientific?, compose?, value_eq_positional]
  generalize cs.dropWhile isDigit = rest at h
  cases rest with
  | nil => simp
  | cons c rest => simp

theorem number_of_compose? {text : List Char} {x : Scientific} (hwhole : Digits whole)
    (hfraction : Digits fraction) (hm : Mantissa text whole fraction)
    (h : compose? whole fraction tail = some x) : Number (text ++ tail) x := by
  unfold compose? at h
  split at h
  · cases h
  · rename_i hne
    obtain ⟨e, he, rfl⟩ := Option.map_eq_some_iff.mp h
    exact .mk hwhole hfraction hne hm (exponent?_eq_some_iff.mp he)

theorem compose?_of_exponent {e : Int} (hne : whole ++ fraction ≠ []) (he : Exponent tail e) :
    compose? whole fraction tail =
      some ⟨positional (whole ++ fraction), e - fraction.length⟩ := by
  rw [compose?, if_neg hne, exponent?_eq_some_iff.mpr he, Option.map_some]

theorem scientific?_eq_some_iff {cs : List Char} {x : Scientific} :
    scientific? cs = some x ↔ Number cs x := by
  constructor
  · intro h
    have hcs := List.takeWhile_append_dropWhile (p := isDigit) (l := cs)
    by_cases hpoint : ∃ rest, cs.dropWhile isDigit = '.' :: rest
    · obtain ⟨rest, hrest⟩ := hpoint
      rw [scientific?_of_point hrest] at h
      have hnumber := number_of_compose? (digits_takeWhile cs) (digits_takeWhile rest) .point h
      have hjoin : cs.takeWhile isDigit ++ '.' :: rest.takeWhile isDigit ++
          rest.dropWhile isDigit = cs := by
        rw [List.append_assoc, List.cons_append, List.takeWhile_append_dropWhile, ← hrest, hcs]
      rwa [hjoin] at hnumber
    · rw [not_exists] at hpoint
      rw [scientific?_of_no_point hpoint] at h
      have hnumber := number_of_compose? (digits_takeWhile cs) digits_nil .whole h
      rwa [hcs] at hnumber
  · rintro ⟨hwhole, hfraction, hne, hmantissa, he⟩
    have hstop := head?_of_exponent he
    cases hmantissa with
    | whole =>
      obtain ⟨htake, hdrop⟩ := takeWhile_digits hwhole fun c hc => (hstop c hc).1
      rw [scientific?_of_no_point, htake, hdrop, compose?_of_exponent hne he]
      intro rest hrest
      rw [hdrop] at hrest
      exact (hstop '.' (by rw [hrest]; rfl)).2 rfl
    | point =>
      obtain ⟨htake, hdrop⟩ := takeWhile_digits hfraction fun c hc => (hstop c hc).1
      rename_i whole fraction tail e
      have hpoint : ∀ c, ('.' :: (fraction ++ tail)).head? = some c → isDigit c = false := by
        intro c hc
        cases hc
        decide
      obtain ⟨htake', hdrop'⟩ := takeWhile_digits hwhole hpoint
      rw [List.append_assoc, List.cons_append, scientific?_of_point hdrop', htake', htake, hdrop,
        compose?_of_exponent hne he]

end Number

section Literal

variable {cs : List Char}

theorem head?_of_number {x : Scientific} (h : Number cs x) :
    ∃ c, cs.head? = some c ∧ (isDigit c = true ∨ c = '.') := by
  obtain ⟨hwhole, -, hne, hmantissa, -⟩ := h
  rename_i text whole fraction tail e
  cases whole with
  | cons d ds =>
    have hd := isDigit_iff.mpr (hwhole d List.mem_cons_self)
    cases hmantissa with
    | whole => exact ⟨d, rfl, .inl hd⟩
    | point => exact ⟨d, rfl, .inl hd⟩
  | nil =>
    cases hmantissa with
    | whole => exact absurd rfl hne
    | point => exact ⟨'.', rfl, .inr rfl⟩

theorem ne_name_of_number {x : Scientific} (h : Number cs x) :
    cs.map Char.toLower ≠ "inf".toList ∧ cs.map Char.toLower ≠ "infinity".toList ∧
      cs.map Char.toLower ≠ "nan".toList := by
  obtain ⟨c, hc, hdigit⟩ := head?_of_number h
  have hlower : (cs.map Char.toLower).head? = some c := by
    have hc' : c.toLower = c := by
      rcases hdigit with hd | rfl
      · exact toLower_of_isDigit hd
      · rfl
    rw [List.head?_map, hc, Option.map_some, hc']
  have hletter : c ≠ 'i' ∧ c ≠ 'n' := by
    rcases hdigit with hd | rfl
    · exact ⟨ne_of_isDigit hd (by decide), ne_of_isDigit hd (by decide)⟩
    · decide
  refine ⟨?_, ?_, ?_⟩
  · intro he
    rw [he] at hlower
    exact hletter.1 (Option.some.inj hlower).symm
  · intro he
    rw [he] at hlower
    exact hletter.1 (Option.some.inj hlower).symm
  · intro he
    rw [he] at hlower
    exact hletter.2 (Option.some.inj hlower).symm

theorem magnitude?_eq_some_iff {bits : Nat} : magnitude? cs = some bits ↔ Unsigned cs bits := by
  simp only [magnitude?]
  constructor
  · intro h
    split at h
    · rename_i hname
      cases h
      exact .infinity (by simpa using hname)
    · split at h
      · rename_i hname
        cases h
        exact .nan hname
      · obtain ⟨x, hx, rfl⟩ := Option.map_eq_some_iff.mp h
        exact .number (scientific?_eq_some_iff.mp hx)
  · intro h
    cases h with
    | infinity hname =>
      rw [if_pos (by simpa using hname)]
    | nan hname =>
      rw [hname]
      rfl
    | number hx =>
      obtain ⟨hinf, hinfinity, hnan⟩ := ne_name_of_number hx
      have hname : ¬ cs.map Char.toLower = ['n', 'a', 'n'] := hnan
      rw [if_neg (by simpa using ⟨hinf, hinfinity⟩), if_neg hname,
        scientific?_eq_some_iff.mpr hx]
      rfl

theorem head?_ne_sign_of_unsigned {bits : Nat} (h : Unsigned cs bits) {c : Char}
    (hc : c = '-' ∨ c = '+') : cs.head? ≠ some c := by
  intro hhead
  have hlower : (cs.map Char.toLower).head? = some c := by
    rw [List.head?_map, hhead]
    rcases hc with rfl | rfl <;> rfl
  cases h with
  | infinity hname =>
    rcases hname with hname | hname <;> rw [hname] at hlower <;> rcases hc with rfl | rfl <;>
      cases hlower
  | nan hname =>
    rw [hname] at hlower
    rcases hc with rfl | rfl <;> cases hlower
  | number hx =>
    obtain ⟨d, hd, hdigit⟩ := head?_of_number hx
    rw [hhead] at hd
    cases hd
    rcases hc with rfl | rfl <;> revert hdigit <;> decide

theorem literal?_eq_some_iff {w : Word} : literal? cs = some w ↔ Literal cs w := by
  constructor
  · intro h
    simp only [literal?] at h
    obtain ⟨bits, hbits, rfl⟩ := Option.map_eq_some_iff.mp h
    exact .mk (sign_takeSign cs) (magnitude?_eq_some_iff.mp hbits)
  · rintro ⟨hsign, hbits⟩
    have htake := takeSign_of_sign hsign (head?_ne_sign_of_unsigned hbits (.inl rfl))
      (head?_ne_sign_of_unsigned hbits (.inr rfl))
    simp only [literal?, htake, magnitude?_eq_some_iff.mpr hbits]
    rfl

end Literal

end Decimal
end StackMachine
