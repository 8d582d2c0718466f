import StackMachine.Proofs.Source.Grammar

/-!
# StackMachine.Proofs.Source.Case

Words in another case.

* `Recased`: two words that differ in the case of ASCII letters alone. Where there is no letter they
  are the same (`Recased.eq_of_fixed`).
* `Decimal.Literal.recased`, `Address.recased`: numbers are read in any case, and so are the names
  and the letters that doubles have.
* `Spells.recased`, `Bracketed.recased`: so are names, with brackets around them or not.
-/

namespace StackMachine

/-- A word and the same word in another case. -/
def Recased (word other : List Char) : Prop := other.map Char.toLower = word.map Char.toLower

section Letters

variable {c d : Char}

theorem toNat_toLower (c : Char) :
    c.toLower.toNat = if 65 ≤ c.toNat ∧ c.toNat ≤ 90 then c.toNat + 32 else c.toNat := by
  by_cases h : c.val ≥ 'A'.val ∧ c.val ≤ 'Z'.val
  · have hlower : c.toLower = ⟨c.val + ('a'.val - 'A'.val), _⟩ := dif_pos h
    have hupper : 65 ≤ c.toNat ∧ c.toNat ≤ 90 := h
    have hval : c.toLower.toNat = (c.val + ('a'.val - 'A'.val)).toNat := by rw [hlower]; rfl
    rw [if_pos hupper, hval, UInt32.toNat_add]
    exact Nat.mod_eq_of_lt (Nat.lt_of_le_of_lt (Nat.add_le_add_right hupper.2 32) (by decide))
  · have hlower : c.toLower = c := dif_neg h
    have hupper : ¬ (65 ≤ c.toNat ∧ c.toNat ≤ 90) := h
    rw [hlower, if_neg hupper]

/-- What is not a letter has no other case. -/
theorem eq_of_toLower_eq (hc : c.isAlpha = false) (h : d.toLower = c.toLower) : d = c := by
  have hletter : ¬ Letter c := by simp [← isAlpha_iff, hc]
  have hupper : ¬ (65 ≤ c.toNat ∧ c.toNat ≤ 90) := fun h => hletter (.inr h)
  have hlower : ¬ (97 ≤ c.toNat ∧ c.toNat ≤ 122) := fun h => hletter (.inl h)
  have hnat := congrArg Char.toNat h
  rw [toNat_toLower, toNat_toLower, if_neg hupper] at hnat
  apply Char.toNat_inj.mp
  split at hnat
  · omega
  · exact hnat

theorem eq_of_toLower_eq_e (h : d.toLower = 'e') : d = 'e' ∨ d = 'E' := by
  have hnat := congrArg Char.toNat h
  have he : 'e'.toNat = 101 := rfl
  rw [toNat_toLower, he] at hnat
  split at hnat
  · exact .inr (Char.toNat_inj.mp (by show d.toNat = 69; omega))
  · exact .inl (Char.toNat_inj.mp hnat)

end Letters

namespace Recased

variable {word other first second : List Char} {c : Char}

theorem refl (word : List Char) : Recased word word := rfl

theorem cons_inv {cs : List Char} (h : Recased (c :: cs) other) :
    ∃ d ds, other = d :: ds ∧ d.toLower = c.toLower ∧ Recased cs ds := by
  rw [Recased, List.map_cons, List.map_eq_cons_iff] at h
  obtain ⟨d, ds, rfl, hd, hds⟩ := h
  exact ⟨d, ds, rfl, hd, hds⟩

theorem append_inv (h : Recased (first ++ second) other) :
    ∃ first' second', other = first' ++ second' ∧ Recased first first' ∧
      Recased second second' := by
  rw [Recased, List.map_append, List.map_eq_append_iff] at h
  obtain ⟨first', second', rfl, hfirst, hsecond⟩ := h
  exact ⟨first', second', rfl, hfirst, hsecond⟩

theorem eq_of_fixed (hword : ∀ c ∈ word, c.isAlpha = false) (h : Recased word other) :
    other = word := by
  induction word generalizing other with
  | nil => exact List.map_eq_nil_iff.mp h
  | cons c cs ih =>
    obtain ⟨d, ds, rfl, hd, hds⟩ := h.cons_inv
    rw [eq_of_toLower_eq (hword c List.mem_cons_self) hd,
      ih (fun x hx => hword x (List.mem_cons_of_mem c hx)) hds]

theorem fixed_cons_inv {cs : List Char} (hc : c.isAlpha = false) (h : Recased (c :: cs) other) :
    ∃ ds, other = c :: ds ∧ Recased cs ds := by
  obtain ⟨d, ds, rfl, hd, hds⟩ := h.cons_inv
  exact ⟨ds, by rw [eq_of_toLower_eq hc hd], hds⟩

end Recased

namespace Decimal

variable {word other : List Char}

theorem Digits.fixed {ds : List Char} (h : Digits ds) : ∀ c ∈ ds, c.isAlpha = false :=
  fun c hc => isAlpha_of_isDigit (isDigit_iff.mpr (h c hc))

theorem Mantissa.fixed {whole fraction : List Char} (h : Mantissa word whole fraction)
    (hwhole : Digits whole) (hfraction : Digits fraction) : ∀ c ∈ word, c.isAlpha = false := by
  cases h with
  | whole => exact hwhole.fixed
  | point =>
    intro c hc
    rw [List.mem_append, List.mem_cons] at hc
    rcases hc with hc | rfl | hc
    · exact hwhole.fixed c hc
    · rfl
    · exact hfraction.fixed c hc

theorem Sign.recased {negative : Bool} {unsigned : List Char} (h : Sign negative unsigned word)
    (hcase : Recased word other) :
    ∃ unsigned', Sign negative unsigned' other ∧ Recased unsigned unsigned' := by
  cases h with
  | minus =>
    obtain ⟨ds, rfl, hds⟩ := hcase.fixed_cons_inv (by decide)
    exact ⟨ds, .minus, hds⟩
  | plus =>
    obtain ⟨ds, rfl, hds⟩ := hcase.fixed_cons_inv (by decide)
    exact ⟨ds, .plus, hds⟩
  | none => exact ⟨other, .none, hcase⟩

theorem Integer.recased {n : Int} (h : Integer word n) (hcase : Recased word other) :
    Integer other n := by
  obtain ⟨hsign, hne, hdigits⟩ := h
  obtain ⟨unsigned', hsign', hcase'⟩ := hsign.recased hcase
  obtain rfl := hcase'.eq_of_fixed hdigits.fixed
  exact .mk hsign' hne hdigits

theorem Exponent.recased {e : Int} (h : Exponent word e) (hcase : Recased word other) :
    Exponent other e := by
  cases h with
  | absent =>
    obtain rfl := hcase.eq_of_fixed (by simp)
    exact .absent
  | @present c cs n hc hn =>
    obtain ⟨d, ds, rfl, hd, hds⟩ := hcase.cons_inv
    refine .present ?_ (hn.recased hds)
    have hlower : d.toLower = 'e' := by
      rcases hc with rfl | rfl
      · exact hd
      · exact hd
    exact eq_of_toLower_eq_e hlower

theorem Number.recased {x : Scientific} (h : Number word x) (hcase : Recased word other) :
    Number other x := by
  obtain ⟨hwhole, hfraction, hne, hmantissa, he⟩ := h
  obtain ⟨text', tail', rfl, htext, htail⟩ := hcase.append_inv
  obtain rfl := htext.eq_of_fixed (hmantissa.fixed hwhole hfraction)
  exact .mk hwhole hfraction hne hmantissa (he.recased htail)

theorem Unsigned.recased {bits : Nat} (h : Unsigned word bits) (hcase : Recased word other) :
    Unsigned other bits := by
  cases h with
  | infinity hname =>
    rw [← hcase] at hname
    exact .infinity hname
  | nan hname =>
    rw [← hcase] at hname
    exact .nan hname
  | number hx => exact .number (hx.recased hcase)

theorem Literal.recased {w : Word} (h : Literal word w) (hcase : Recased word other) :
    Literal other w := by
  obtain ⟨hsign, hbits⟩ := h
  obtain ⟨unsigned', hsign', hcase'⟩ := hsign.recased hcase
  exact .mk hsign' (hbits.recased hcase')

end Decimal

section Words

variable {word other inner name : List Char}

theorem Spells.recased (h : Spells word name) (hcase : Recased word other) : Spells other name :=
  hcase.trans h

theorem Address.recased {a : Int32} (h : Address inner a) (hcase : Recased inner other) :
    Address other a :=
  ⟨h.1.recased hcase, h.2⟩

theorem Bracketed.recased (h : Bracketed word inner) (hcase : Recased word other) :
    ∃ inner', Bracketed other inner' ∧ Recased inner inner' := by
  subst h
  obtain ⟨ds, rfl, hds⟩ := hcase.fixed_cons_inv (by decide)
  obtain ⟨inner', last, rfl, hinner, hlast⟩ := hds.append_inv
  obtain rfl := hlast.eq_of_fixed fun c hc => by rw [List.mem_singleton.mp hc]; rfl
  exact ⟨inner', rfl, hinner⟩

end Words

end StackMachine
