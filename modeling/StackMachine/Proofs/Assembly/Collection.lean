import Mathlib.Data.List.Nodup
import StackMachine.Proofs.Assembly.Layout
import StackMachine.Proofs.Source.Program

/-!
# StackMachine.Proofs.Assembly.Collection

What a text is collected to, and the first thing in it that cannot be collected.

* `Statement.names`: the names that statements define.
* `Listing.Holds`: a listing of certain statements. Adding one keeps this, or refuses a name that
  they define already.
* `collected_iff_split`: a text is collected exactly when its lines are divided into statements that
  define no name twice, and then to these statements.
* `FirstOffence`, `ofText?_eq_error_iff`: the error is that of the first words, in the order of the
  text, that begin no statement or define a name again.
-/

namespace StackMachine

namespace Statement

def defined? : Statement → Option Label
  | label l => some l
  | instr _ => none

def definitions (ss : List Statement) : List Label := ss.filterMap defined?

def names (ss : List Statement) : List String := (definitions ss).map Label.name

@[simp] theorem names_nil : names [] = [] := rfl

@[simp] theorem names_instr (i : Instr Label) (ss : List Statement) :
    names (instr i :: ss) = names ss := rfl

@[simp] theorem names_label (d : Label) (ss : List Statement) :
    names (label d :: ss) = d.name :: names ss := rfl

@[simp] theorem names_append (ss ts : List Statement) : names (ss ++ ts) = names ss ++ names ts := by
  rw [names, definitions, List.filterMap_append, List.map_append]
  rfl

theorem index?_eq_none_iff {name : String} {ss : List Statement} :
    index? name ss = none ↔ name ∉ names ss := by
  induction ss with
  | nil => simp [index?]
  | cons s ss ih =>
    cases s with
    | instr i => simp only [index?, Option.map_eq_none_iff, ih, names_instr]
    | label d =>
      by_cases hd : d.name = name
      · simp [index?, hd]
      · have hname : ¬ name = d.name := fun h => hd h.symm
        simp [index?, hd, ih, hname]

/-- Where names are defined once, a label stands for the number of instructions before the place of
its definition. -/
theorem index?_of_definition {ss : List Statement} (hnodup : (names ss).Nodup) {n : Nat}
    {d : Label} (h : ss[n]? = some (.label d)) :
    index? d.name ss = some (instrs (ss.take n)).length := by
  obtain ⟨hn, hd⟩ := List.getElem?_eq_some_iff.mp h
  have hsplit : ss = ss.take n ++ label d :: ss.drop (n + 1) := by
    rw [← hd, List.getElem_cons_drop, List.take_append_drop]
  have hfree : d.name ∉ names (ss.take n) := by
    rw [hsplit, names_append, names_label] at hnodup
    exact fun hmem => List.disjoint_of_nodup_append hnodup hmem List.mem_cons_self
  have hindex := index?_append d.name (ss.take n) (label d :: ss.drop (n + 1))
  rw [← hsplit, index?_eq_none_iff.mpr hfree] at hindex
  simpa [index?] using hindex

end Statement

namespace Listing

open Statement (names)

/-- Why the next thing that is read cannot be collected behind certain statements. -/
inductive Refused (ss : List Statement) : Except AssemblyError Statement → AssemblyError → Prop where
  | unread {e : AssemblyError} : Refused ss (.error e) e
  | redefined {d : Label} : d.name ∈ names ss →
      Refused ss (.ok (.label d)) ⟨.duplicateLabel d.name, d.span⟩

/-- A listing of these statements, which define no name twice. -/
structure Holds (l : Listing) (ss : List Statement) : Prop where
  coherent : l.Coherent
  statements_eq : l.statements.toList = ss
  nodup : (names ss).Nodup

theorem holds_empty : empty.Holds [] := ⟨coherent_empty, rfl, List.nodup_nil⟩

section Holds

variable {l m : Listing} {ss : List Statement}

theorem Holds.get?_eq (h : l.Holds ss) (name : String) :
    l.symbols.get? name =
      (Statement.index? name ss).map (Instr.address (Statement.instrs ss)) := by
  rw [h.coherent.get?_eq, Listing.instrs, h.statements_eq]

theorem Holds.get?_eq_none_iff (h : l.Holds ss) {name : String} :
    l.symbols.get? name = none ↔ name ∉ names ss := by
  rw [h.get?_eq, Option.map_eq_none_iff, Statement.index?_eq_none_iff]

theorem Holds.add_eq_error_iff (h : l.Holds ss) {s : Statement} {e : AssemblyError} :
    l.add s = .error e ↔
      ∃ d, s = .label d ∧ d.name ∈ names ss ∧ e = ⟨.duplicateLabel d.name, d.span⟩ := by
  have htable : ∀ name, (∃ a, l.symbols.get? name = some a) ↔ name ∈ names ss := by
    intro name
    rw [← Option.ne_none_iff_exists', ne_eq, h.get?_eq_none_iff, not_not]
  rw [Listing.add_eq_error_iff]
  constructor
  · rintro ⟨d, a, hs, ha, he⟩
    exact ⟨d, hs, (htable d.name).mp ⟨a, ha⟩, he⟩
  · rintro ⟨d, hs, hd, he⟩
    obtain ⟨a, ha⟩ := (htable d.name).mpr hd
    exact ⟨d, a, hs, ha, he⟩

theorem Holds.add (h : l.Holds ss) {s : Statement} (hs : l.add s = .ok m) : m.Holds (ss ++ [s]) := by
  refine ⟨h.coherent.add hs, ?_, ?_⟩
  · rw [(of_add hs).1, Array.toList_push, h.statements_eq]
  · cases s with
    | instr i =>
      rw [Statement.names_append, Statement.names_instr, Statement.names_nil, List.append_nil]
      exact h.nodup
    | label d =>
      have hfree : d.name ∉ names ss := by
        intro hd
        rw [h.add_eq_error_iff.mpr ⟨d, rfl, hd, rfl⟩] at hs
        cases hs
      rw [Statement.names_append, Statement.names_label, Statement.names_nil,
        List.nodup_append_comm]
      exact List.nodup_cons.mpr ⟨hfree, h.nodup⟩

theorem Holds.addAll (h : l.Holds ss) (as : List (Except AssemblyError Statement)) :
    (∃ ts m, as = ts.map .ok ∧ l.addAll as = .ok m ∧ m.Holds (ss ++ ts)) ∨
      ∃ ts a rest e, as = ts.map .ok ++ a :: rest ∧ (names (ss ++ ts)).Nodup ∧
        Refused (ss ++ ts) a e ∧ l.addAll as = .error e := by
  -- What is held grows with every statement, so the induction is over all listings at once.
  induction as generalizing l ss with
  | nil => exact .inl ⟨[], l, rfl, rfl, by rwa [List.append_nil]⟩
  | cons a as ih =>
    cases a with
    | error e =>
      refine .inr ⟨[], .error e, as, e, rfl, ?_, .unread, rfl⟩
      rw [List.append_nil]
      exact h.nodup
    | ok s =>
      cases hs : l.add s with
      | error e =>
        obtain ⟨d, rfl, hd, rfl⟩ := h.add_eq_error_iff.mp hs
        refine .inr ⟨[], .ok (.label d), as, _, rfl, ?_, .redefined ?_, ?_⟩
        · rw [List.append_nil]
          exact h.nodup
        · rwa [List.append_nil]
        · simp only [Listing.addAll, hs]
      | ok m =>
        have haddAll : l.addAll (.ok s :: as) = m.addAll as := by
          simp only [Listing.addAll, hs]
        rw [haddAll]
        rcases ih (h.add hs) with ⟨ts, u, rfl, hu, hholds⟩ | ⟨ts, a, rest, e, rfl, hnodup, ha, he⟩
        · refine .inl ⟨s :: ts, u, rfl, hu, ?_⟩
          rwa [List.append_assoc] at hholds
        · rw [List.append_assoc] at hnodup ha
          exact .inr ⟨s :: ts, a, rest, e, rfl, hnodup, ha, he⟩

end Holds

theorem not_refused_of_nodup {ss first : List Statement} {a : Except AssemblyError Statement}
    {rest : List (Except AssemblyError Statement)} {e : AssemblyError} (h : (names ss).Nodup)
    (hss : ss.map .ok = first.map .ok ++ a :: rest) : ¬ Refused first a e := by
  intro ha
  obtain ⟨first', later, rfl, hfirst, hlater⟩ := List.map_eq_append_iff.mp hss
  obtain rfl := eq_of_map_ok hfirst
  obtain ⟨s, later, rfl, rfl, -⟩ := List.map_eq_cons_iff.mp hlater
  cases ha with
  | redefined hd =>
    rw [Statement.names_append, Statement.names_label] at h
    exact List.disjoint_of_nodup_append h hd List.mem_cons_self

/-- A name that is defined twice is the only thing that keeps statements from being collected. -/
theorem addAll_of_nodup {ss : List Statement} (h : (names ss).Nodup) :
    ∃ l, empty.addAll (ss.map .ok) = .ok l ∧ l.Holds ss := by
  rcases holds_empty.addAll (ss.map .ok) with
    ⟨ts, l, hts, hl, hholds⟩ | ⟨ts, a, rest, e, hss, -, ha, -⟩
  · obtain rfl := eq_of_map_ok hts
    exact ⟨l, hl, hholds⟩
  · exact absurd ha (not_refused_of_nodup h hss)

theorem addAll_of_refused {ss : List Statement} (h : (names ss).Nodup)
    {a : Except AssemblyError Statement} {e : AssemblyError} (ha : Refused ss a e)
    (rest : List (Except AssemblyError Statement)) :
    empty.addAll (ss.map .ok ++ a :: rest) = .error e := by
  obtain ⟨l, hl, hholds⟩ := addAll_of_nodup h
  rw [addAll_append, hl]
  cases ha with
  | unread => rfl
  | redefined hd =>
    have hadd := hholds.add_eq_error_iff.mpr ⟨_, rfl, hd, rfl⟩
    simp only [addAll, hadd]

section Text

variable {cs : List Char} {ss : List Statement} {l : Listing}

theorem ofText?_of_reads (h : Reads (Token.lines cs) ss) (hnodup : (names ss).Nodup) :
    ∃ l, ofText? cs = .ok l ∧ l.Holds ss := by
  obtain ⟨l, hl, hholds⟩ := addAll_of_nodup hnodup
  refine ⟨l, ?_, hholds⟩
  rw [ofText?, Statement.ofText, h.read]
  exact hl

theorem reads_of_ofText? (h : ofText? cs = .ok l) : ∃ ss, Reads (Token.lines cs) ss ∧ l.Holds ss := by
  rcases holds_empty.addAll (Statement.ofText cs) with
    ⟨ss, m, hss, hm, hholds⟩ | ⟨ss, a, rest, e, -, -, -, he⟩
  · rw [← ofText?, h] at hm
    cases hm
    exact ⟨ss, reads_of_read hss, hholds⟩
  · rw [← ofText?, h] at he
    cases he

/-- A text is collected exactly when each of its lines can be divided into statements, which is
possible in one way at most, and these define no name twice. -/
theorem collected_iff_split (cs : List Char) :
    ((∃ l, ofText? cs = .ok l) ↔ ∃ splits, List.Forall₂ Split (Token.lines cs) splits ∧
      (names (splits.flatten.map Prod.snd)).Nodup) ∧
    (∀ splits splits', List.Forall₂ Split (Token.lines cs) splits →
      List.Forall₂ Split (Token.lines cs) splits' → splits = splits') ∧
    ∀ l splits, ofText? cs = .ok l → List.Forall₂ Split (Token.lines cs) splits →
      l.statements.toList = splits.flatten.map Prod.snd ∧
        ∀ s ∈ l.statements.toList, ∀ label ∈ s.labels, label.span.Covers cs label.name.toList := by
  refine ⟨⟨?_, ?_⟩, fun splits splits' h h' => split_unique_all h h', ?_⟩
  · rintro ⟨l, hl⟩
    obtain ⟨ss, ⟨splits, hsplits, rfl⟩, hholds⟩ := reads_of_ofText? hl
    exact ⟨splits, hsplits, hholds.nodup⟩
  · rintro ⟨splits, hsplits, hnodup⟩
    obtain ⟨l, hl, -⟩ := ofText?_of_reads ⟨splits, hsplits, rfl⟩ hnodup
    exact ⟨l, hl⟩
  · intro l splits hl hsplits
    obtain ⟨ss, hreads, hholds⟩ := reads_of_ofText? hl
    have hss : l.statements.toList = splits.flatten.map Prod.snd := by
      rw [hholds.statements_eq]
      exact hreads.unique ⟨splits, hsplits, rfl⟩
    refine ⟨hss, fun s hs => ?_⟩
    rw [hholds.statements_eq] at hs
    exact hreads.covers hs

end Text

end Listing

section Offence

open Statement (names)

/-- Behind certain statements, words that begin no statement or define one of their names again. -/
inductive Offends (ss : List Statement) : List Token → AssemblyError → Prop where
  | malformed {ws : List Token} {e : AssemblyError} : Malformed ws e → Offends ss ws e
  | redefined {ws rest : List Token} {d : Label} : Written ws (.label d) → d.name ∈ names ss →
      Offends ss (ws ++ rest) ⟨.duplicateLabel d.name, d.span⟩

/-- Everything in front of some words is in order, and these are not. -/
def FirstOffence (cs : List Char) (e : AssemblyError) : Prop :=
  ∃ ss ws, Before (Token.lines cs) ss ws ∧ (names ss).Nodup ∧ Offends ss ws e

variable {cs : List Char} {ss : List Statement} {ws : List Token} {e : AssemblyError}

theorem Offends.read (h : Offends ss ws e) :
    ∃ a rest, Statement.ofLine ws = a :: rest ∧ Listing.Refused ss a e := by
  cases h with
  | malformed hm => exact ⟨_, [], Statement.ofLine_malformed hm, .unread⟩
  | redefined hw hd => exact ⟨_, _, Statement.ofLine_written hw _, .redefined hd⟩

theorem offends_of_read {a : Except AssemblyError Statement}
    {rest : List (Except AssemblyError Statement)} (h : Statement.ofLine ws = a :: rest)
    (ha : Listing.Refused ss a e) : Offends ss ws e := by
  have hws : ws ≠ [] := by
    rintro rfl
    cases h
  rcases written_or_malformed hws with ⟨ws, later, s, rfl, hs⟩ | ⟨e', he⟩
  · rw [Statement.ofLine_written hs] at h
    obtain ⟨rfl, -⟩ := List.cons.inj h
    cases ha with
    | redefined hd => exact .redefined hs hd
  · rw [Statement.ofLine_malformed he] at h
    obtain ⟨rfl, -⟩ := List.cons.inj h
    cases ha with
    | unread => exact .malformed he

/-- A text that is not collected fails with its first offence. -/
theorem ofText?_eq_error_iff : Listing.ofText? cs = .error e ↔ FirstOffence cs e := by
  constructor
  · intro h
    rcases Listing.holds_empty.addAll (Statement.ofText cs) with
      ⟨ss, l, -, hl, -⟩ | ⟨ss, a, rest, e', hread, hnodup, ha, he⟩
    · rw [← Listing.ofText?, h] at hl
      cases hl
    · rw [← Listing.ofText?, h] at he
      cases he
      obtain ⟨ws, more, hbefore, hws⟩ := before_of_read hread
      exact ⟨ss, ws, hbefore, hnodup, offends_of_read hws ha⟩
  · rintro ⟨ss, ws, hbefore, hnodup, hoffends⟩
    obtain ⟨more, hread⟩ := hbefore.read
    obtain ⟨a, rest, hws, ha⟩ := hoffends.read
    rw [Listing.ofText?, Statement.ofText, hread, hws, List.cons_append]
    exact Listing.addAll_of_refused hnodup ha (rest ++ more)

theorem FirstOffence.newline (h : FirstOffence cs e) (more : List Char) :
    FirstOffence (cs ++ '\n' :: more) e := by
  obtain ⟨ss, ws, ⟨upper, start, lower, hlines, hreads⟩, hnodup, hoffends⟩ := h
  have hmore := Token.lines_newline cs more
  rw [hlines, List.append_assoc, List.cons_append] at hmore
  exact ⟨ss, ws, ⟨upper, start, _, hmore, hreads⟩, hnodup, hoffends⟩

end Offence

end StackMachine
