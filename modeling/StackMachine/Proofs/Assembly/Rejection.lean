import StackMachine.Proofs.Assembly.Linking

/-!
# StackMachine.Proofs.Assembly.Rejection

Which error assembly reports.

* `Offends.not_ofTarget`: what is wrong with a statement itself never concerns its target.
* `exists_firstOffence`: where there is an offence, there is a first one.
* `assemble_reports`: the first offence is reported, and only without any the first jump that leads
  nowhere. Everything else is assembled.
-/

namespace StackMachine

open Statement (names instrs index?)

/-- Defects that only the emission of code can show. -/
def Defect.OfTarget (d : Defect) : Prop :=
  ∃ name, d = .unresolvedLabel name ∨ d = .offsetOutOfRange name

theorem Malformed.not_ofTarget {ws : List Token} {e : AssemblyError} (h : Malformed ws e) :
    ¬ e.defect.OfTarget := by
  rintro ⟨name, hname⟩
  cases h <;> simp at hname

theorem Offends.not_ofTarget {ss : List Statement} {ws : List Token} {e : AssemblyError}
    (h : Offends ss ws e) : ¬ e.defect.OfTarget := by
  cases h with
  | malformed hm => exact hm.not_ofTarget
  | redefined hw hd =>
    rintro ⟨name, hname⟩
    simp at hname

theorem not_offends_of_reads {lines : List (List Token)} {ss ts : List Statement}
    {ws : List Token} {e : AssemblyError} (h : Reads lines ts) (hnodup : (names ts).Nodup)
    (hbefore : Before lines ss ws) : ¬ Offends ss ws e := by
  intro hoffends
  obtain ⟨more, hread⟩ := hbefore.read
  obtain ⟨a, rest, hws, ha⟩ := hoffends.read
  rw [h.read, hws, List.cons_append] at hread
  exact Listing.not_refused_of_nodup hnodup hread ha

theorem exists_firstOffence {cs : List Char} {ss : List Statement} {ws : List Token}
    {e : AssemblyError} (hbefore : Before (Token.lines cs) ss ws) (h : Offends ss ws e) :
    ∃ first, FirstOffence cs first := by
  cases htext : Listing.ofText? cs with
  | error first => exact ⟨first, ofText?_eq_error_iff.mp htext⟩
  | ok l =>
    obtain ⟨ts, hreads, hholds⟩ := Listing.reads_of_ofText? htext
    exact absurd h (not_offends_of_reads hreads hholds.nodup hbefore)

/-- Every jump of a program leads to a definition within its reach, wherever that stands. -/
def Linkable (ss : List Statement) : Prop :=
  ∀ k kind label, (instrs ss)[k]? = some (.jump kind label) →
    ∃ target, index? label.name ss = some target ∧
      InReach (Instr.address (instrs ss) target - Instr.address (instrs ss) k : Int)

theorem linkable_iff {ss : List Statement} : Linkable ss ↔ ∀ k e, ¬ Unlinked ss k e := by
  constructor
  · intro h k e hu
    cases hu with
    | unresolved hk hname =>
      obtain ⟨target, htarget, -⟩ := h _ _ _ hk
      rw [Statement.index?_eq_none_iff.mpr hname] at htarget
      cases htarget
    | far hk htarget hfar =>
      obtain ⟨target, htarget', hreach⟩ := h _ _ _ hk
      rw [htarget] at htarget'
      cases htarget'
      exact hfar hreach
  · intro h k kind label hk
    cases htarget : index? label.name ss with
    | none => exact absurd (.unresolved hk (Statement.index?_eq_none_iff.mp htarget)) (h k _)
    | some target =>
      refine ⟨target, rfl, ?_⟩
      by_contra hfar
      exact h k _ (.far hk htarget hfar)

section Text

variable {source : String}

theorem assemble_of_firstOffence {e : AssemblyError} (h : FirstOffence source.toList e) :
    assemble source = .error e :=
  assemble_of_ofText?_error (ofText?_eq_error_iff.mpr h)

theorem assemble_eq_error_iff {e : AssemblyError} :
    assemble source = .error e ↔ FirstOffence source.toList e ∨
      ∃ ss, Reads (Token.lines source.toList) ss ∧ (names ss).Nodup ∧ FirstUnlinked ss e := by
  constructor
  · intro h
    cases htext : Listing.ofText? source.toList with
    | error e' =>
      have hfirst := ofText?_eq_error_iff.mp htext
      rw [assemble_of_firstOffence hfirst] at h
      cases h
      exact .inl hfirst
    | ok l =>
      obtain ⟨ss, hreads, hholds⟩ := Listing.reads_of_ofText? htext
      rw [assemble_of_ofText? htext] at h
      exact .inr ⟨ss, hreads, hholds.nodup, hholds.emit_eq_error_iff.mp h⟩
  · rintro (hfirst | ⟨ss, hreads, hnodup, hunlinked⟩)
    · exact assemble_of_firstOffence hfirst
    · obtain ⟨l, htext, hholds⟩ := Listing.ofText?_of_reads hreads hnodup
      rw [assemble_of_ofText? htext]
      exact hholds.emit_eq_error_iff.mpr hunlinked

theorem assemble_ok_iff :
    (∃ code, assemble source = .ok code) ↔
      ∃ ss, Reads (Token.lines source.toList) ss ∧ (names ss).Nodup ∧ Linkable ss := by
  constructor
  · rintro ⟨code, hcode⟩
    obtain ⟨l, htext, hemit⟩ := listing_of_assemble hcode
    obtain ⟨ss, hreads, hholds⟩ := Listing.reads_of_ofText? htext
    exact ⟨ss, hreads, hholds.nodup, linkable_iff.mpr (hholds.emit_ok_iff.mp ⟨code, hemit⟩)⟩
  · rintro ⟨ss, hreads, hnodup, hlinkable⟩
    obtain ⟨l, htext, hholds⟩ := Listing.ofText?_of_reads hreads hnodup
    rw [assemble_of_ofText? htext]
    exact hholds.emit_ok_iff.mpr (linkable_iff.mp hlinkable)

end Text

/-- Assembly reports the first offence, whatever jumps stand before it and whatever text below it.
Only a text without any can fail for a jump, and then for the first that leads nowhere. -/
theorem assemble_reports (source : String) :
    (∀ ss ws e, Before (Token.lines source.toList) ss ws → Offends ss ws e →
      ∃ first, FirstOffence source.toList first) ∧
    (∀ e, FirstOffence source.toList e → ¬ e.defect.OfTarget ∧ assemble source = .error e ∧
      ∀ more, assemble (source ++ "\n" ++ more) = .error e) ∧
    (∀ e, assemble source = .error e ↔ FirstOffence source.toList e ∨
      ∃ ss, Reads (Token.lines source.toList) ss ∧ (names ss).Nodup ∧ FirstUnlinked ss e) ∧
    ((∃ code, assemble source = .ok code) ↔
      ∃ ss, Reads (Token.lines source.toList) ss ∧ (names ss).Nodup ∧ Linkable ss) := by
  refine ⟨fun ss ws e => exists_firstOffence, ?_, fun e => assemble_eq_error_iff, assemble_ok_iff⟩
  intro e hfirst
  refine ⟨?_, assemble_of_firstOffence hfirst, ?_⟩
  · obtain ⟨ss, ws, -, -, hoffends⟩ := hfirst
    exact hoffends.not_ofTarget
  · intro more
    apply assemble_of_firstOffence
    rw [toList_newline]
    exact hfirst.newline more.toList

/-- An operand is not looked for on the next line, and its want outweighs the missing label. -/
example : assemble "jmp nowhere\npush\n1" = .error ⟨.emptyArgument "push", ⟨16, 0⟩⟩ := by
  decide +kernel

end StackMachine
