import StackMachine.Proofs.Assembly.Rejection

/-!
# StackMachine.Proofs.Assembly.Places

The place in the source that an error points at.

* `Defect.quoted?`: the name or the address that a defect tells of, where its place is just that.
* `AssemblyError.Shows`: the place of an error is in the text, and holds what the error quotes.
* `Malformed.shows`, `Offends.shows`, `Unlinked.shows`: this holds of every way to fail.
* `Reads.before`: each statement of a program has its place.
* `invalidLabel_place`, `emptyArgument_place`, `duplicateLabel_place`, `target_place`: the words that
  the errors stand at whose places tell more than what they quote.
* `error_place`: what stands at the place of each error, and where in the program that is.
-/

namespace StackMachine

open Statement (names instrs)

/-- The name or the address that a defect tells of, where its place is just that. -/
def Defect.quoted? : Defect → Option String
  | unknownMnemonic name => some name
  | emptyArgument _ => none
  | invalidRegister _ name => some name
  | invalidAddress _ text => some text
  | invalidLabel _ => none
  | duplicateLabel name => some name
  | unresolvedLabel name => some name
  | offsetOutOfRange name => some name

/-- The place of an error is in the text, and holds what the error quotes. -/
def AssemblyError.Shows (cs : List Char) (e : AssemblyError) : Prop :=
  ∃ text, e.span.Covers cs text ∧ ∀ quoted, e.defect.quoted? = some quoted → quoted.toList = text

section Shows

variable {cs : List Char} {ws : List Token} {e : AssemblyError}

theorem shows_quoted {text : List Char} {span : Span} {d : Defect}
    (hd : d.quoted? = some (String.ofList text)) (h : span.Covers cs text) :
    AssemblyError.Shows cs ⟨d, span⟩ := by
  refine ⟨text, h, ?_⟩
  intro quoted hq
  rw [hd] at hq
  cases hq
  exact String.toList_ofList

theorem shows_other {text : List Char} {span : Span} {d : Defect} (hd : d.quoted? = none)
    (h : span.Covers cs text) : AssemblyError.Shows cs ⟨d, span⟩ := by
  refine ⟨text, h, ?_⟩
  intro quoted hq
  rw [hd] at hq
  cases hq

theorem covers_inner {arg : Token} {inner : List Char} (hb : Bracketed arg.text inner)
    (h : arg.span.Covers cs arg.text) :
    (⟨arg.start + 1, Utf8.size inner⟩ : Span).Covers cs inner := by
  have hparts : arg.span.Covers cs (['['] ++ inner ++ [']']) := by rwa [hb] at h
  exact hparts.middle

theorem Malformed.shows (h : Malformed ws e) (hws : ∀ t ∈ ws, t.span.Covers cs t.text) :
    e.Shows cs := by
  cases h with
  | label hd hn => exact shows_other rfl (hws _ List.mem_cons_self)
  | mnemonic hl hp hj hm => exact shows_quoted rfl (hws _ List.mem_cons_self)
  | target ht => exact shows_other rfl (hws _ List.mem_cons_self).finish
  | place ht => exact shows_other rfl (hws _ List.mem_cons_self).finish
  | jump ht hn => exact shows_other rfl (hws _ (List.mem_cons_of_mem _ List.mem_cons_self))
  | brackets ht hb => exact shows_other rfl (hws _ (List.mem_cons_of_mem _ List.mem_cons_self))
  | fixed ht hb hn ha =>
    exact shows_quoted rfl (covers_inner hb (hws _ (List.mem_cons_of_mem _ List.mem_cons_self)))
  | held ht hb hne hn hr =>
    exact shows_quoted rfl (covers_inner hb (hws _ (List.mem_cons_of_mem _ List.mem_cons_self)))
  | reg ht hb hl hr =>
    exact shows_quoted rfl (hws _ (List.mem_cons_of_mem _ List.mem_cons_self))

theorem Offends.shows {ss : List Statement} (h : Offends ss ws e)
    (hws : ∀ t ∈ ws, t.span.Covers cs t.text) : e.Shows cs := by
  cases h with
  | malformed hm => exact hm.shows hws
  | @redefined ws rest d hw hd =>
    have hcovers := hw.covers (fun t ht => hws t (List.mem_append_left rest ht)) d
      List.mem_cons_self
    exact shows_quoted (by rw [String.ofList_toList]; rfl) hcovers

theorem Before.covers {ss : List Statement} (h : Before (Token.lines cs) ss ws) :
    ∀ t ∈ ws, t.span.Covers cs t.text := by
  obtain ⟨upper, start, lower, hlines, -⟩ := h
  have hline : start ++ ws ∈ Token.lines cs := by
    rw [hlines]
    exact List.mem_append_right upper List.mem_cons_self
  intro t ht
  exact Token.covers_of_mem_lines hline (List.mem_append_right start ht)

end Shows

section Target

variable {lines : List (List Token)} {cs : List Char} {ss : List Statement} {e : AssemblyError}

theorem Reads.before {s : Statement} {later : List Statement}
    (h : Reads lines (ss ++ s :: later)) :
    ∃ ws rest, Before lines ss (ws ++ rest) ∧ Written ws s := by
  have hread := h.read
  rw [List.map_append, List.map_cons] at hread
  obtain ⟨ws, tail, hbefore, hws⟩ := before_of_read hread
  have hne : ws ≠ [] := by
    rintro rfl
    cases hws
  rcases written_or_malformed hne with ⟨ws, rest, s', rfl, hs⟩ | ⟨e, he⟩
  · rw [Statement.ofLine_written hs] at hws
    obtain ⟨hsame, -⟩ := List.cons.inj hws
    cases hsame
    exact ⟨ws, rest, hbefore, hs⟩
  · rw [Statement.ofLine_malformed he] at hws
    cases (List.cons.inj hws).1

theorem before_of_jump (h : Reads lines ss) {k : Nat} {kind : Jump} {l : Label}
    (hk : (instrs ss)[k]? = some (.jump kind l)) :
    ∃ earlier t arg rest, Before lines earlier (t :: arg :: rest) ∧
      Spells t.text kind.mnemonic.toList ∧ l = ⟨String.ofList arg.text, arg.span⟩ := by
  have hmem : Statement.instr (.jump kind l) ∈ ss := by
    obtain ⟨s, hs, hi⟩ := List.mem_filterMap.mp (List.mem_of_getElem? hk)
    cases s with
    | label d => cases hi
    | instr i =>
      cases hi
      exact hs
  obtain ⟨earlier, later, rfl⟩ := List.append_of_mem hmem
  obtain ⟨ws, rest, hbefore, hws⟩ := h.before
  cases hws with
  | @jump t arg _ ht hn => exact ⟨earlier, t, arg, rest, hbefore, ht, rfl⟩

/-- The label of a jump that leads nowhere is the operand of that jump. -/
theorem Unlinked.place (h : Reads lines ss) {k : Nat} (hu : Unlinked ss k e) :
    ∃ (kind : Jump) (earlier : List Statement) (t arg : Token) (rest : List Token),
      Before lines earlier (t :: arg :: rest) ∧ Spells t.text kind.mnemonic.toList ∧
        e.span = arg.span ∧ e.defect.quoted? = some (String.ofList arg.text) := by
  cases hu with
  | @unresolved kind l hk hname =>
    obtain ⟨earlier, t, arg, rest, hbefore, ht, rfl⟩ := before_of_jump h hk
    exact ⟨kind, earlier, t, arg, rest, hbefore, ht, rfl, rfl⟩
  | @far kind l target hk htarget hfar =>
    obtain ⟨earlier, t, arg, rest, hbefore, ht, rfl⟩ := before_of_jump h hk
    exact ⟨kind, earlier, t, arg, rest, hbefore, ht, rfl, rfl⟩

theorem Unlinked.shows (h : Reads (Token.lines cs) ss) {k : Nat} (hu : Unlinked ss k e) :
    e.Shows cs := by
  obtain ⟨kind, earlier, t, arg, rest, hbefore, -, hspan, hquoted⟩ := hu.place h
  obtain ⟨d, span⟩ := e
  simp only at hspan hquoted
  rw [hspan]
  exact shows_quoted hquoted (hbefore.covers arg (List.mem_cons_of_mem t List.mem_cons_self))

end Target

section Kinds

variable {ws : List Token} {e : AssemblyError} {name : String}

theorem Malformed.invalidLabel (h : Malformed ws e) (he : e.defect = .invalidLabel name) :
    (∃ t rest, ws = t :: rest ∧ Defines t.text name.toList ∧ e.span = t.span) ∨
      ∃ (k : Jump) (t arg : Token) (rest : List Token), ws = t :: arg :: rest ∧
        Spells t.text k.mnemonic.toList ∧ arg.text = name.toList ∧ e.span = arg.span := by
  cases h with
  | @label t rest text hd hn =>
    cases he
    exact .inl ⟨t, rest, rfl, by rwa [String.toList_ofList], rfl⟩
  | @jump t arg rest k ht hn =>
    cases he
    exact .inr ⟨k, t, arg, rest, rfl, ht, String.toList_ofList.symm, rfl⟩
  | mnemonic => cases he
  | target => cases he
  | place => cases he
  | brackets => cases he
  | fixed => cases he
  | held => cases he
  | reg => cases he

theorem Malformed.emptyArgument (h : Malformed ws e) (he : e.defect = .emptyArgument name) :
    (∃ t arg rest, ws = t :: arg :: rest ∧ Spells t.text name.toList ∧ arg.text = ['[', ']'] ∧
        e.span = arg.span) ∨
      ∃ t, ws = [t] ∧ Spells t.text name.toList ∧ e.span = ⟨t.span.finish, 0⟩ := by
  cases h with
  | @brackets t arg rest m ht hb =>
    cases he
    exact .inl ⟨t, arg, rest, rfl, ht, hb, rfl⟩
  | @target t k ht =>
    cases he
    exact .inr ⟨t, rfl, ht, rfl⟩
  | @place t m ht =>
    cases he
    exact .inr ⟨t, rfl, ht, rfl⟩
  | label => cases he
  | mnemonic => cases he
  | jump => cases he
  | fixed => cases he
  | held => cases he
  | reg => cases he

theorem Malformed.not_duplicate (h : Malformed ws e) : e.defect ≠ .duplicateLabel name := by
  intro he
  cases h <;> cases he

theorem Offends.duplicate {ss : List Statement} (h : Offends ss ws e)
    (he : e.defect = .duplicateLabel name) :
    ∃ t rest, ws = t :: rest ∧ Defines t.text name.toList ∧ name ∈ names ss ∧
      e.span = ⟨t.start, name.utf8ByteSize⟩ := by
  cases h with
  | malformed hm => exact absurd he hm.not_duplicate
  | @redefined ws rest d hw hd =>
    cases he
    cases hw with
    | @label t text hdefines hname =>
      refine ⟨t, rest, rfl, by rwa [String.toList_ofList], hd, ?_⟩
      rw [← Utf8.size_toList, String.toList_ofList]

end Kinds

section Text

variable {source : String} {e : AssemblyError}

theorem shows_of_assemble (h : assemble source = .error e) : e.Shows source.toList := by
  rcases assemble_eq_error_iff.mp h with
    ⟨ss, ws, hbefore, -, hoffends⟩ | ⟨ss, hreads, -, k, hu, -⟩
  · exact hoffends.shows hbefore.covers
  · exact hu.shows hreads

/-- A defect that a statement shows by itself belongs to the first offence. -/
theorem firstOffence_of_assemble (h : assemble source = .error e) (hd : ¬ e.defect.OfTarget) :
    FirstOffence source.toList e := by
  rcases assemble_eq_error_iff.mp h with hfirst | ⟨ss, -, -, k, hu, -⟩
  · exact hfirst
  · cases hu with
    | unresolved => exact absurd ⟨_, .inl rfl⟩ hd
    | far => exact absurd ⟨_, .inr rfl⟩ hd

theorem malformed_of_assemble (h : assemble source = .error e) (hd : ¬ e.defect.OfTarget)
    (hnew : ∀ name, e.defect ≠ .duplicateLabel name) :
    ∃ ss ws, Before (Token.lines source.toList) ss ws ∧ Malformed ws e := by
  obtain ⟨ss, ws, hbefore, -, hoffends⟩ := firstOffence_of_assemble h hd
  cases hoffends with
  | malformed hm => exact ⟨ss, ws, hbefore, hm⟩
  | redefined => exact absurd rfl (hnew _)

theorem unlinked_of_assemble (h : assemble source = .error e) (hd : e.defect.OfTarget) :
    ∃ ss k, Reads (Token.lines source.toList) ss ∧ Unlinked ss k e := by
  rcases assemble_eq_error_iff.mp h with hfirst | ⟨ss, hreads, -, k, hu, -⟩
  · obtain ⟨ss, ws, -, -, hoffends⟩ := hfirst
    exact absurd hd hoffends.not_ofTarget
  · exact ⟨ss, k, hreads, hu⟩

theorem quoted_place (h : assemble source = .error e) {text : String}
    (he : e.defect.quoted? = some text) : e.span.Covers source.toList text.toList := by
  obtain ⟨shown, hcovers, hquoted⟩ := shows_of_assemble h
  rw [hquoted text he]
  exact hcovers

theorem invalidLabel_place (h : assemble source = .error e) {name : String}
    (he : e.defect = .invalidLabel name) :
    (∃ ss t ws, Before (Token.lines source.toList) ss (t :: ws) ∧ Defines t.text name.toList ∧
        e.span = t.span ∧ e.span.Covers source.toList (name.toList ++ [':'])) ∨
      ∃ (k : Jump) (ss : List Statement) (t arg : Token) (ws : List Token),
        Before (Token.lines source.toList) ss (t :: arg :: ws) ∧
        Spells t.text k.mnemonic.toList ∧ e.span = arg.span ∧
        e.span.Covers source.toList name.toList := by
  obtain ⟨ss, ws, hbefore, hm⟩ := malformed_of_assemble h (by simp [he, Defect.OfTarget])
    (by simp [he])
  rcases hm.invalidLabel he with ⟨t, rest, rfl, hd, hspan⟩ | ⟨k, t, arg, rest, rfl, ht, ha, hspan⟩
  · refine .inl ⟨ss, t, rest, hbefore, hd, hspan, ?_⟩
    rw [hspan, ← hd]
    exact hbefore.covers t List.mem_cons_self
  · refine .inr ⟨k, ss, t, arg, rest, hbefore, ht, hspan, ?_⟩
    rw [hspan, ← ha]
    exact hbefore.covers arg (List.mem_cons_of_mem t List.mem_cons_self)

theorem emptyArgument_place (h : assemble source = .error e) {mnemonic : String}
    (he : e.defect = .emptyArgument mnemonic) :
    (∃ ss t arg ws, Before (Token.lines source.toList) ss (t :: arg :: ws) ∧
        Spells t.text mnemonic.toList ∧ e.span = arg.span ∧
        e.span.Covers source.toList ['[', ']']) ∨
      ∃ ss t, Before (Token.lines source.toList) ss [t] ∧ Spells t.text mnemonic.toList ∧
        t.span.Covers source.toList t.text ∧ e.span = ⟨t.span.finish, 0⟩ := by
  obtain ⟨ss, ws, hbefore, hm⟩ := malformed_of_assemble h (by simp [he, Defect.OfTarget])
    (by simp [he])
  rcases hm.emptyArgument he with ⟨t, arg, rest, rfl, ht, hb, hspan⟩ | ⟨t, rfl, ht, hspan⟩
  · refine .inl ⟨ss, t, arg, rest, hbefore, ht, hspan, ?_⟩
    rw [hspan, ← hb]
    exact hbefore.covers arg (List.mem_cons_of_mem t List.mem_cons_self)
  · exact .inr ⟨ss, t, hbefore, ht, hbefore.covers t List.mem_cons_self, hspan⟩

theorem duplicateLabel_place (h : assemble source = .error e) {name : String}
    (he : e.defect = .duplicateLabel name) :
    ∃ ss t ws, Before (Token.lines source.toList) ss (t :: ws) ∧ (names ss).Nodup ∧
      name ∈ names ss ∧ Defines t.text name.toList ∧ e.span = ⟨t.start, name.utf8ByteSize⟩ := by
  obtain ⟨ss, ws, hbefore, hnodup, hoffends⟩ :=
    firstOffence_of_assemble h (by simp [he, Defect.OfTarget])
  obtain ⟨t, rest, rfl, hd, hmem, hspan⟩ := hoffends.duplicate he
  exact ⟨ss, t, rest, hbefore, hnodup, hmem, hd, hspan⟩

theorem target_place (h : assemble source = .error e) {name : String}
    (he : e.defect = .unresolvedLabel name ∨ e.defect = .offsetOutOfRange name) :
    ∃ (k : Jump) (ss : List Statement) (t arg : Token) (ws : List Token),
      Before (Token.lines source.toList) ss (t :: arg :: ws) ∧
      Spells t.text k.mnemonic.toList ∧ arg.text = name.toList ∧ e.span = arg.span := by
  obtain ⟨ss, k, hreads, hu⟩ := unlinked_of_assemble h ⟨name, he⟩
  obtain ⟨kind, earlier, t, arg, rest, hbefore, ht, hspan, hquoted⟩ := hu.place hreads
  have hname : e.defect.quoted? = some name := by
    rcases he with he | he <;> rw [he] <;> rfl
  rw [hquoted, Option.some.injEq] at hname
  refine ⟨kind, earlier, t, arg, rest, hbefore, ht, ?_, hspan⟩
  rw [← hname, String.toList_ofList]

end Text

/-- The place of an error is in the source and cuts no character in two. What stands there is the
name or the address that the error tells of; only an invalid definition has its colon with it, and
a missing operand has nothing, right behind the mnemonic, or its brackets. An error about a label
stands at the second definition of it, or at the operand of a jump. -/
theorem error_place {source : String} {e : AssemblyError} (h : assemble source = .error e) :
    e.span.Within source ∧
      (∀ text, e.defect.quoted? = some text → e.span.Covers source.toList text.toList) ∧
      (∀ name, e.defect = .invalidLabel name →
        (∃ ss t ws, Before (Token.lines source.toList) ss (t :: ws) ∧
          Defines t.text name.toList ∧ e.span = t.span ∧
          e.span.Covers source.toList (name.toList ++ [':'])) ∨
        ∃ (k : Jump) (ss : List Statement) (t arg : Token) (ws : List Token),
          Before (Token.lines source.toList) ss (t :: arg :: ws) ∧
          Spells t.text k.mnemonic.toList ∧ e.span = arg.span ∧
          e.span.Covers source.toList name.toList) ∧
      (∀ mnemonic, e.defect = .emptyArgument mnemonic →
        (∃ ss t arg ws, Before (Token.lines source.toList) ss (t :: arg :: ws) ∧
          Spells t.text mnemonic.toList ∧ e.span = arg.span ∧
          e.span.Covers source.toList ['[', ']']) ∨
        ∃ ss t, Before (Token.lines source.toList) ss [t] ∧ Spells t.text mnemonic.toList ∧
          t.span.Covers source.toList t.text ∧ e.span = ⟨t.span.finish, 0⟩) ∧
      (∀ name, e.defect = .duplicateLabel name →
        ∃ ss t ws, Before (Token.lines source.toList) ss (t :: ws) ∧ (names ss).Nodup ∧
          name ∈ names ss ∧ Defines t.text name.toList ∧
          e.span = ⟨t.start, name.utf8ByteSize⟩) ∧
      ∀ name, e.defect = .unresolvedLabel name ∨ e.defect = .offsetOutOfRange name →
        ∃ (k : Jump) (ss : List Statement) (t arg : Token) (ws : List Token),
          Before (Token.lines source.toList) ss (t :: arg :: ws) ∧
          Spells t.text k.mnemonic.toList ∧ arg.text = name.toList ∧ e.span = arg.span := by
  obtain ⟨text, hcovers, -⟩ := shows_of_assemble h
  exact ⟨hcovers.within, fun text => quoted_place h, fun name => invalidLabel_place h,
    fun mnemonic => emptyArgument_place h, fun name => duplicateLabel_place h,
    fun name => target_place h⟩

/-- Between brackets, behind characters of two bytes. -/
theorem error_place_register :
    assemble "; é\npush [éx]" = .error ⟨.invalidRegister "push" "éx", ⟨11, 3⟩⟩ ∧
      (⟨11, 3⟩ : Span).Within "; é\npush [éx]" ∧
      (⟨11, 3⟩ : Span).Covers "; é\npush [éx]".toList "éx".toList := by
  have h : assemble "; é\npush [éx]" = .error ⟨.invalidRegister "push" "éx", ⟨11, 3⟩⟩ := by
    decide +kernel
  exact ⟨h, (error_place h).1, (error_place h).2.1 "éx" rfl⟩

end StackMachine
