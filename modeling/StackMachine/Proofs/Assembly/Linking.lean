import StackMachine.Proofs.Assembly.Collection
import StackMachine.Proofs.Assembly.Placement

/-!
# StackMachine.Proofs.Assembly.Linking

Which programs can be emitted, and what is reported of those that cannot.

* `emit_eq_ok_iff`: the code of a listing is that of its linked instructions, if they can be linked.
* `Statement.assembleAll`: the code of a program that is given by its statements.
* `InReach`: the distances that a jump can cover.
* `Unlinked`: a jump whose label is defined nowhere, or too far away.
* `Listing.Holds.emit_eq_error_iff`: emission fails with the first of these.
-/

namespace StackMachine

open Statement (instrs index? names)

section Linking

variable {symbols : Symbols}

variable {ss : List Statement} {i : Instr Label} {out : Code}

theorem Statement.emitAll_label (d : Label) (ss : List Statement) (out : Code) :
    emitAll symbols (label d :: ss) out = emitAll symbols ss out := by
  simp [emitAll, emit, encode]

theorem Statement.emitAll_instr {j : Instr Offset} (h : i.resolve out.size symbols = .ok j) :
    emitAll symbols (instr i :: ss) out = emitAll symbols ss (out ++ j.encode.toArray) := by
  simp only [emitAll, emit, encode, h]
  rfl

theorem Statement.emitAll_refused {e : AssemblyError}
    (h : i.resolve out.size symbols = .error e) :
    emitAll symbols (instr i :: ss) out = .error e := by
  simp only [emitAll, emit, encode, h]
  rfl

theorem size_append_encode {j : Instr Offset} (h : i.resolve out.size symbols = .ok j) :
    (out ++ j.encode.toArray).size = out.size + i.size := by
  simp [Instr.size_resolve h]

theorem Statement.emitAll_of_linked {js : List (Instr Offset)}
    (h : Linked symbols out.size (instrs ss) js) :
    emitAll symbols ss out = .ok (out ++ (Instr.encodeAll js).toArray) := by
  induction ss generalizing out js with
  | nil =>
    cases h
    simp [emitAll, Instr.encodeAll]
  | cons s ss ih =>
    cases s with
    | label d =>
      rw [emitAll_label]
      exact ih h
    | instr i =>
      cases h with
      | cons hi hjs =>
        rw [← size_append_encode hi] at hjs
        rw [emitAll_instr hi, ih hjs]
        simp [Instr.encodeAll, Array.append_assoc]

theorem Listing.emit_eq_ok_iff {l : Listing} {code : Code} :
    l.emit = .ok code ↔
      ∃ js, Linked l.symbols 0 l.instrs js ∧ code = (Instr.encodeAll js).toArray := by
  constructor
  · exact linked_of_emit
  · rintro ⟨js, hjs, rfl⟩
    have hall : l.emit = .ok (#[] ++ (Instr.encodeAll js).toArray) :=
      Statement.emitAll_of_linked hjs
    rw [hall, Array.empty_append]

/-- Emission stops at the first instruction that cannot be resolved. -/
theorem Statement.emitAll_error {e : AssemblyError} (h : emitAll symbols ss out = .error e) :
    ∃ (k : Nat) (i : Instr Label), (instrs ss)[k]? = some i ∧
      i.resolve (out.size + Instr.address (instrs ss) k) symbols = .error e ∧
      ∀ m < k, ∃ (j : Instr Label) (r : Instr Offset), (instrs ss)[m]? = some j ∧
        j.resolve (out.size + Instr.address (instrs ss) m) symbols = .ok r := by
  induction ss generalizing out with
  | nil => cases h
  | cons s ss ih =>
    cases s with
    | label d =>
      rw [emitAll_label] at h
      exact ih h
    | instr i =>
      cases hr : i.resolve out.size symbols with
      | error e' =>
        rw [emitAll_refused hr] at h
        cases h
        exact ⟨0, i, rfl, hr, by simp⟩
      | ok r =>
        rw [emitAll_instr hr] at h
        obtain ⟨k, i', hk, he, hbefore⟩ := ih h
        rw [size_append_encode hr, Nat.add_assoc, ← Instr.address_cons] at he
        refine ⟨k + 1, i', hk, he, ?_⟩
        intro m hm
        cases m with
        | zero => exact ⟨i, r, rfl, hr⟩
        | succ m =>
          obtain ⟨j, r', hj, hr'⟩ := hbefore m (by omega)
          rw [size_append_encode hr, Nat.add_assoc, ← Instr.address_cons] at hr'
          exact ⟨j, r', hj, hr'⟩

end Linking

/-- The distances between which a signed 32-bit operand can tell. -/
def InReach (distance : Int) : Prop := -2147483648 ≤ distance ∧ distance ≤ 2147483647

/-- The `k`-th instruction of a program is a jump that leads nowhere, with the error that it shows.
Where in the program its label is defined does not matter, before the jump or behind it. -/
inductive Unlinked (ss : List Statement) (k : Nat) : AssemblyError → Prop where
  | unresolved {kind : Jump} {l : Label} : (instrs ss)[k]? = some (.jump kind l) →
      l.name ∉ names ss → Unlinked ss k ⟨.unresolvedLabel l.name, l.span⟩
  | far {kind : Jump} {l : Label} {target : Nat} : (instrs ss)[k]? = some (.jump kind l) →
      index? l.name ss = some target →
      ¬ InReach (Instr.address (instrs ss) target - Instr.address (instrs ss) k : Int) →
      Unlinked ss k ⟨.offsetOutOfRange l.name, l.span⟩

def FirstUnlinked (ss : List Statement) (e : AssemblyError) : Prop :=
  ∃ k, Unlinked ss k e ∧ ∀ m < k, ∀ e', ¬ Unlinked ss m e'

theorem offset?_eq_none_iff {target address : Nat} :
    offset? target address = none ↔ ¬ InReach (target - address : Int) := by
  have hmin : Int32.minValue.toInt = -2147483648 := rfl
  have hmax : Int32.maxValue.toInt = 2147483647 := rfl
  simp only [offset?, InReach, hmin, hmax]
  split
  · rename_i h
    exact ⟨by simp, fun hfar => absurd h hfar⟩
  · rename_i h
    exact ⟨fun _ => h, fun _ => rfl⟩

theorem Label.offset_eq_error_iff {l : Label} {address : Nat} {symbols : Symbols}
    {e : AssemblyError} :
    l.offset address symbols = .error e ↔
      (symbols.get? l.name = none ∧ e = ⟨.unresolvedLabel l.name, l.span⟩) ∨
      ∃ target, symbols.get? l.name = some target ∧ ¬ InReach (target - address : Int) ∧
        e = ⟨.offsetOutOfRange l.name, l.span⟩ := by
  unfold Label.offset
  cases symbols.get? l.name with
  | none => simp [eq_comm]
  | some target =>
    cases hd : offset? target address with
    | none =>
      have hreach := offset?_eq_none_iff.mp hd
      simp [hd, hreach, eq_comm]
    | some d =>
      have hreach : InReach (target - address : Int) := by
        by_contra h
        rw [offset?_eq_none_iff.mpr h] at hd
        cases hd
      simp [hd, hreach]

theorem Instr.resolve_eq_error_iff {i : Instr Label} {address : Nat} {symbols : Symbols}
    {e : AssemblyError} :
    i.resolve address symbols = .error e ↔
      ∃ kind l, i = .jump kind l ∧ l.offset address symbols = .error e := by
  cases i with
  | jump kind l =>
    constructor
    · intro h
      refine ⟨kind, l, rfl, ?_⟩
      rw [resolve] at h
      cases hl : l.offset address symbols with
      | error e' =>
        rw [hl] at h
        cases h
        rfl
      | ok d =>
        rw [hl] at h
        cases h
    · rintro ⟨kind', l', hjump, hl⟩
      cases hjump
      rw [resolve, hl]
      rfl
  | plain op => simp [resolve]
  | imm w => simp [resolve]
  | reg m r => simp [resolve]
  | held m r => simp [resolve]
  | fixed m a => simp [resolve]

section Text

variable {source : String}

theorem assemble_of_ofText? {l : Listing} (h : Listing.ofText? source.toList = .ok l) :
    assemble source = l.emit := by
  rw [assemble_eq, h]
  rfl

theorem assemble_of_ofText?_error {e : AssemblyError}
    (h : Listing.ofText? source.toList = .error e) : assemble source = .error e := by
  rw [assemble_eq, h]
  rfl

def Statement.assembleAll (ss : List Statement) : Except AssemblyError Code :=
  (Listing.empty.addAll (ss.map .ok)).bind Listing.emit

theorem assemble_of_reads {ss : List Statement} (h : Reads (Token.lines source.toList) ss) :
    assemble source = Statement.assembleAll ss := by
  rw [assemble_eq, Listing.ofText?, Statement.ofText, h.read, Statement.assembleAll]

theorem reads_of_assemble {code : Code} (h : assemble source = .ok code) :
    ∃ ss, Reads (Token.lines source.toList) ss ∧ Statement.assembleAll ss = .ok code := by
  obtain ⟨l, hl, -⟩ := listing_of_assemble h
  obtain ⟨ss, hss, -⟩ := Listing.reads_of_ofText? hl
  exact ⟨ss, hss, (assemble_of_reads hss).symm.trans h⟩

end Text

namespace Listing

variable {l : Listing} {ss : List Statement} {e : AssemblyError}

theorem Holds.unlinked_iff (h : l.Holds ss) {k : Nat} :
    Unlinked ss k e ↔ ∃ i, (Statement.instrs ss)[k]? = some i ∧
      i.resolve (Instr.address (Statement.instrs ss) k) l.symbols = .error e := by
  constructor
  · intro hu
    cases hu with
    | unresolved hk hname =>
      refine ⟨_, hk, Instr.resolve_eq_error_iff.mpr ⟨_, _, rfl, ?_⟩⟩
      exact Label.offset_eq_error_iff.mpr (.inl ⟨h.get?_eq_none_iff.mpr hname, rfl⟩)
    | far hk htarget hfar =>
      refine ⟨_, hk, Instr.resolve_eq_error_iff.mpr ⟨_, _, rfl, ?_⟩⟩
      refine Label.offset_eq_error_iff.mpr (.inr ⟨_, ?_, hfar, rfl⟩)
      rw [h.get?_eq, htarget, Option.map_some]
  · rintro ⟨i, hk, hi⟩
    obtain ⟨kind, label, rfl, hoffset⟩ := Instr.resolve_eq_error_iff.mp hi
    rcases Label.offset_eq_error_iff.mp hoffset with ⟨hnone, rfl⟩ | ⟨a, ha, hfar, rfl⟩
    · exact .unresolved hk (h.get?_eq_none_iff.mp hnone)
    · rw [h.get?_eq, Option.map_eq_some_iff] at ha
      obtain ⟨target, htarget, rfl⟩ := ha
      exact .far hk htarget hfar

theorem Holds.linked_of_emit (h : l.Holds ss) {code : Code} (hcode : l.emit = .ok code) (k : Nat) :
    ¬ Unlinked ss k e := by
  intro hu
  obtain ⟨js, hjs, -⟩ := emit_eq_ok_iff.mp hcode
  obtain ⟨i, hk, hi⟩ := h.unlinked_iff.mp hu
  rw [Listing.instrs, h.statements_eq] at hjs
  obtain ⟨j, -, hj⟩ := hjs.getElem? hk
  rw [Nat.zero_add, hi] at hj
  cases hj

theorem Holds.first_of_emit (h : l.Holds ss) (he : l.emit = .error e) : FirstUnlinked ss e := by
  obtain ⟨k, i, hk, hi, hbefore⟩ := Statement.emitAll_error he
  rw [h.statements_eq] at hk hi hbefore
  simp only [List.size_toArray, List.length_nil, Nat.zero_add] at hi hbefore
  refine ⟨k, h.unlinked_iff.mpr ⟨i, hk, hi⟩, ?_⟩
  intro m hm e' hu
  obtain ⟨j, r, hj, hr⟩ := hbefore m hm
  obtain ⟨j', hj', he'⟩ := h.unlinked_iff.mp hu
  rw [hj] at hj'
  cases hj'
  rw [hr] at he'
  cases he'

theorem Holds.unlinked_unique (h : l.Holds ss) {k : Nat} {e' : AssemblyError}
    (hu : Unlinked ss k e) (hu' : Unlinked ss k e') : e = e' := by
  obtain ⟨i, hk, hi⟩ := h.unlinked_iff.mp hu
  obtain ⟨i', hk', hi'⟩ := h.unlinked_iff.mp hu'
  rw [hk] at hk'
  cases hk'
  rw [hi] at hi'
  exact Except.error.inj hi'

theorem Holds.emit_eq_error_iff (h : l.Holds ss) : l.emit = .error e ↔ FirstUnlinked ss e := by
  constructor
  · exact h.first_of_emit
  · rintro ⟨k, hu, hbefore⟩
    cases hemit : l.emit with
    | ok code => exact absurd hu (h.linked_of_emit hemit k)
    | error e' =>
      obtain ⟨k', hu', hbefore'⟩ := h.first_of_emit hemit
      obtain hlt | rfl | hlt := Nat.lt_trichotomy k k'
      · exact absurd hu (hbefore' k hlt e)
      · rw [h.unlinked_unique hu hu']
      · exact absurd hu' (hbefore k' hlt e')

theorem Holds.emit_ok_iff (h : l.Holds ss) :
    (∃ code, l.emit = .ok code) ↔ ∀ k e, ¬ Unlinked ss k e := by
  constructor
  · rintro ⟨code, hcode⟩ k e
    exact h.linked_of_emit hcode k
  · intro hall
    cases hemit : l.emit with
    | ok code => exact ⟨code, rfl⟩
    | error e =>
      obtain ⟨k, hu, -⟩ := h.first_of_emit hemit
      exact absurd hu (hall k e)

end Listing
end StackMachine
