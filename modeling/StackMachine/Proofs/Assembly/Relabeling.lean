import StackMachine.Proofs.Assembly.Linking

/-!
# StackMachine.Proofs.Assembly.Relabeling

Programs with other names for their labels, which stand at other places of the text.

* `Statement.relabel`, `Listing.relabel`, `AssemblyError.relabel`: the same with other names and
  places.
* `Listing.add_relabel`, `Listing.addAll_relabel`: different names stay different, so the same
  additions are refused.
* `Statement.emit_relabel`, `Listing.emit_relabel`: a label reaches the code only by its address.
* `Statement.bare`, `Statement.assembleAll_of_bare`: where labels stand in the text does not reach
  the code at all.
-/

namespace StackMachine

section Relabel

variable (r : String → String) (q : Span → Span)

def Label.relabel (l : Label) : Label := ⟨r l.name, q l.span⟩

def Instr.relabel : Instr Label → Instr Label
  | .jump k l => .jump k (l.relabel r q)
  | i => i

/-- A statement with `r` of the name of its label, which stands at `q` of its place. -/
def Statement.relabel : Statement → Statement
  | .instr i => .instr (i.relabel r q)
  | .label l => .label (l.relabel r q)

def Symbols.rename (t : Symbols) : Symbols := ⟨t.entries.map fun e => (r e.1, e.2)⟩

def Listing.relabel (l : Listing) : Listing :=
  ⟨l.statements.map (Statement.relabel r q), l.symbols.rename r, l.size⟩

@[simp]
theorem Listing.relabel_empty : Listing.empty.relabel r q = .empty := by
  simp [Listing.relabel, empty, Symbols.rename, Symbols.empty]

def Defect.rename : Defect → Defect
  | duplicateLabel name => duplicateLabel (r name)
  | unresolvedLabel name => unresolvedLabel (r name)
  | offsetOutOfRange name => offsetOutOfRange (r name)
  | d => d

def AssemblyError.relabel (e : AssemblyError) : AssemblyError := ⟨e.defect.rename r, q e.span⟩

theorem Instr.size_relabel (i : Instr Label) : (i.relabel r q).size = i.size := by
  cases i <;> rfl

theorem Statement.size_relabel (s : Statement) : (s.relabel r q).size = s.size := by
  cases s with
  | instr i => exact i.size_relabel r q
  | label l => rfl

end Relabel

section Injective

variable {r : String → String} (hr : Function.Injective r) (q : Span → Span)

include hr

theorem Symbols.get?_rename (t : Symbols) (name : String) :
    (t.rename r).get? (r name) = t.get? name := by
  obtain ⟨entries⟩ := t
  induction entries with
  | nil => rfl
  | cons e entries ih =>
    obtain ⟨known, address⟩ := e
    have hname : (r name == r known) = (name == known) := by
      rw [Bool.eq_iff_iff, beq_iff_eq, beq_iff_eq, hr.eq_iff]
    simp only [get?, rename, List.map_cons, List.lookup_cons, hname] at ih ⊢
    rw [ih]

theorem Symbols.insert_rename (t : Symbols) (name : String) (address : Nat) :
    (t.rename r).insert (r name) address = (t.insert name address).map (rename r) := by
  rw [insert, insert, get?_rename hr]
  cases t.get? name with
  | some previous => rfl
  | none => simp [Except.map, rename]

namespace Listing

theorem define_relabel (l : Listing) (s : Statement) :
    (l.relabel r q).define (s.relabel r q) =
      ((l.define s).map (Symbols.rename r)).mapError (AssemblyError.relabel r q) := by
  cases s with
  | instr i => rfl
  | label d =>
    simp only [Statement.relabel, define, relabel, Label.relabel, Symbols.insert_rename hr]
    cases l.symbols.insert d.name l.size <;> rfl

theorem add_relabel (l : Listing) (s : Statement) :
    (l.relabel r q).add (s.relabel r q) =
      ((l.add s).map (relabel r q)).mapError (AssemblyError.relabel r q) := by
  rw [add, add, define_relabel hr]
  cases l.define s with
  | error e => rfl
  | ok t => simp [Except.map, Except.mapError, relabel, Statement.size_relabel]

theorem addAll_relabel (l : Listing) (ss : List Statement) :
    (l.relabel r q).addAll ((ss.map (Statement.relabel r q)).map .ok) =
      ((l.addAll (ss.map .ok)).map (relabel r q)).mapError (AssemblyError.relabel r q) := by
  induction ss generalizing l with
  | nil => rfl
  | cons s ss ih =>
    simp only [List.map_cons, addAll, add_relabel hr]
    cases l.add s with
    | error e => rfl
    | ok m => exact ih m

end Listing

theorem Instr.resolve_relabel (address : Nat) (symbols : Symbols) (i : Instr Label) :
    (i.relabel r q).resolve address (symbols.rename r) =
      (i.resolve address symbols).mapError (AssemblyError.relabel r q) := by
  cases i with
  | jump k l =>
    simp only [relabel, resolve, Label.relabel, Label.offset, Symbols.get?_rename hr]
    cases symbols.get? l.name with
    | none => rfl
    | some target =>
      simp only
      cases offset? target address <;> rfl
  | plain op => rfl
  | imm w => rfl
  | reg m x => rfl
  | held m x => rfl
  | fixed m a => rfl

/-- The code behind which a statement is emitted gets the same bytes, or the error has other
names. -/
theorem Statement.emit_relabel (address : Nat) (symbols : Symbols) (out : Code) (s : Statement) :
    (s.relabel r q).emit address (symbols.rename r) out =
      ((s.emit address symbols out).1.map (AssemblyError.relabel r q),
        (s.emit address symbols out).2) := by
  cases s with
  | label d => rfl
  | instr i =>
    simp only [relabel, emit, encode, Instr.resolve_relabel hr]
    cases i.resolve address symbols <;> rfl

theorem Statement.emitAll_relabel (symbols : Symbols) (ss : List Statement) (out : Code) :
    emitAll (symbols.rename r) (ss.map (relabel r q)) out =
      (emitAll symbols ss out).mapError (AssemblyError.relabel r q) := by
  induction ss generalizing out with
  | nil => rfl
  | cons s ss ih =>
    simp only [List.map_cons, emitAll, emit_relabel hr]
    rcases s.emit out.size symbols out with ⟨e?, after⟩
    cases e? with
    | some e => rfl
    | none => exact ih after

theorem Listing.emit_relabel (l : Listing) :
    (l.relabel r q).emit = l.emit.mapError (AssemblyError.relabel r q) := by
  rw [emit, emit, ← Statement.emitAll_relabel hr, relabel, Array.toList_map]

end Injective

namespace Statement

/-- A statement apart from the place of its label. -/
def bare (s : Statement) : Statement := s.relabel id fun _ => ⟨0, 0⟩

theorem bare_shift (n : Nat) (s : Statement) : (s.shift n).bare = s.bare := by
  cases s with
  | label l => rfl
  | instr i => cases i <;> rfl

theorem assembleAll_relabel {r : String → String} (hr : Function.Injective r) (q : Span → Span)
    (ss : List Statement) :
    assembleAll (ss.map (relabel r q)) = (assembleAll ss).mapError (AssemblyError.relabel r q) := by
  have hall := Listing.addAll_relabel hr q .empty ss
  rw [Listing.relabel_empty] at hall
  rw [assembleAll, assembleAll, hall]
  cases Listing.empty.addAll (ss.map .ok) with
  | error e => rfl
  | ok l => exact Listing.emit_relabel hr q l

theorem assembleAll_of_bare {ss ts : List Statement} {code : Code}
    (hbare : ts.map bare = ss.map bare) (h : assembleAll ss = .ok code) :
    assembleAll ts = .ok code := by
  have hts := assembleAll_relabel Function.injective_id (fun _ => ⟨0, 0⟩) ts
  have hss := assembleAll_relabel Function.injective_id (fun _ => ⟨0, 0⟩) ss
  rw [h] at hss
  have hcode := hts.symm.trans ((congrArg assembleAll hbare).trans hss)
  cases hall : assembleAll ts with
  | error e =>
    rw [hall] at hcode
    cases hcode
  | ok d =>
    rw [hall] at hcode
    cases hcode
    rfl

end Statement

end StackMachine
