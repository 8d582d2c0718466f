import Mathlib.Data.List.Forall2
import StackMachine.Proofs.Source.Lines
import StackMachine.Proofs.Source.Reading

/-!
# StackMachine.Proofs.Source.Program

Programs of several lines, and places in them.

* `Reads`: the statements of lines that are divided one by one.
* `Before`: the statements in front of a place, and the words from there to the end of its line.
* `Reads.read`, `reads_of_read`: statements that are read are those that stand there.
* `Before.read`, `before_of_read`: so are the statements in front of a place.
* `Statement.shift`, `Reads.shift`: the statements of a text that begins later.
* `Reads.covers`: labels stand where their spans say.
-/

namespace StackMachine

/-- Lines with these statements, every one of them on one line with its operand. -/
def Reads (lines : List (List Token)) (ss : List Statement) : Prop :=
  ∃ splits, List.Forall₂ Split lines splits ∧ splits.flatten.map Prod.snd = ss

/-- If the text ended in front of the words `ws`, its statements would be `ss`. -/
def Before (lines : List (List Token)) (ss : List Statement) (ws : List Token) : Prop :=
  ∃ upper start lower, lines = upper ++ (start ++ ws) :: lower ∧ Reads (upper ++ [start]) ss

section Reads

variable {lines : List (List Token)} {ss : List Statement}

theorem Reads.nil : Reads [] [] := ⟨[], .nil, rfl⟩

theorem Reads.cons {line : List Token} {parts : List (List Token × Statement)}
    (hline : Split line parts) (h : Reads lines ss) :
    Reads (line :: lines) (parts.map Prod.snd ++ ss) := by
  obtain ⟨splits, hsplits, rfl⟩ := h
  refine ⟨parts :: splits, .cons hline hsplits, ?_⟩
  rw [List.flatten_cons, List.map_append]

theorem Reads.append {lower : List (List Token)} {ts : List Statement} (h : Reads lines ss)
    (hlower : Reads lower ts) : Reads (lines ++ lower) (ss ++ ts) := by
  obtain ⟨upperSplits, hupperSplits, rfl⟩ := h
  obtain ⟨lowerSplits, hlowerSplits, rfl⟩ := hlower
  refine ⟨upperSplits ++ lowerSplits, List.rel_append hupperSplits hlowerSplits, ?_⟩
  rw [List.flatten_append, List.map_append]

theorem Reads.read (h : Reads lines ss) : lines.flatMap Statement.ofLine = ss.map .ok := by
  obtain ⟨splits, hsplits, rfl⟩ := h
  induction hsplits with
  | nil => rfl
  | cons hline _ ih =>
    rw [List.flatMap_cons, hline.ofLine, ih, List.flatten_cons, List.map_append, List.map_append]

theorem Reads.flatten (h : Reads lines ss) :
    ∃ parts, Split lines.flatten parts ∧ parts.map Prod.snd = ss := by
  obtain ⟨splits, hsplits, rfl⟩ := h
  refine ⟨splits.flatten, ?_, rfl⟩
  induction hsplits with
  | nil => exact .nil
  | cons hline _ ih => exact hline.append ih

theorem eq_of_map_ok {ts : List Statement}
    (h : ss.map (Except.ok : Statement → Except AssemblyError Statement) = ts.map .ok) : ss = ts :=
  List.map_injective_iff.mpr (fun _ _ => Except.ok.inj) h

theorem Reads.unique {ts : List Statement} (h : Reads lines ss) (h' : Reads lines ts) :
    ss = ts :=
  eq_of_map_ok (h.read.symm.trans h'.read)

theorem split_unique_all {splits splits' : List (List (List Token × Statement))}
    (h : List.Forall₂ Split lines splits) (h' : List.Forall₂ Split lines splits') :
    splits = splits' := by
  induction h generalizing splits' with
  | nil =>
    cases h'
    rfl
  | cons hline _ ih =>
    cases h' with
    | cons hline' hrest' => rw [hline.unique hline', ih hrest']

theorem Reads.split (h : Reads lines ss) {line : List Token} (hline : line ∈ lines) :
    ∃ parts, Split line parts := by
  obtain ⟨splits, hsplits, -⟩ := h
  induction hsplits with
  | nil => cases hline
  | cons hfirst _ ih =>
    rcases List.mem_cons.mp hline with rfl | hline
    · exact ⟨_, hfirst⟩
    · exact ih hline

theorem split_of_ofLine_eq {line : List Token} (h : Statement.ofLine line = ss.map .ok) :
    ∃ parts, Split line parts ∧ parts.map Prod.snd = ss := by
  rw [← List.append_nil (ss.map _)] at h
  obtain ⟨start, rest, parts, rfl, hparts, hss, hrest⟩ := split_of_ofLine h
  have hnil : rest = [] := by
    by_contra hne
    exact Statement.ofLine_ne_nil hne hrest
  rw [hnil, List.append_nil]
  exact ⟨parts, hparts, hss⟩

/-- The other way round: lines read as statements and nothing else are divided into these. -/
theorem reads_of_read (h : lines.flatMap Statement.ofLine = ss.map .ok) : Reads lines ss := by
  induction lines generalizing ss with
  | nil =>
    rw [List.flatMap_nil, eq_comm, List.map_eq_nil_iff] at h
    rw [h]
    exact .nil
  | cons line lines ih =>
    rw [List.flatMap_cons, eq_comm, List.map_eq_append_iff] at h
    obtain ⟨first, rest, rfl, hfirst, hrest⟩ := h
    obtain ⟨parts, hparts, rfl⟩ := split_of_ofLine_eq hfirst.symm
    exact .cons hparts (ih hrest.symm)

end Reads

section Before

variable {lines : List (List Token)} {ss : List Statement} {ws : List Token}

theorem Before.read (h : Before lines ss ws) :
    ∃ more, lines.flatMap Statement.ofLine = ss.map .ok ++ (Statement.ofLine ws ++ more) := by
  obtain ⟨upper, start, lower, rfl, hreads⟩ := h
  have hupper := hreads.read
  obtain ⟨parts, hparts⟩ := hreads.split (List.mem_append_right upper List.mem_cons_self)
  refine ⟨lower.flatMap Statement.ofLine, ?_⟩
  rw [List.flatMap_append, List.flatMap_singleton] at hupper
  rw [List.flatMap_append, List.flatMap_cons, hparts.ofLine_append, ← hparts.ofLine, ← hupper]
  simp only [List.append_assoc]

theorem before_of_read {a : Except AssemblyError Statement}
    {more : List (Except AssemblyError Statement)}
    (h : lines.flatMap Statement.ofLine = ss.map .ok ++ a :: more) :
    ∃ ws rest, Before lines ss ws ∧ Statement.ofLine ws = a :: rest := by
  induction lines generalizing ss with
  | nil =>
    rw [List.flatMap_nil, eq_comm, List.append_eq_nil_iff] at h
    cases h.2
  | cons line lines ih =>
    -- Either the line is read through before `a` is read, or `a` is read on this line.
    rw [List.flatMap_cons, List.append_eq_append_iff] at h
    rcases h with ⟨rest, hfirst, hrest⟩ | ⟨rest, hfirst, hrest⟩
    · rw [List.map_eq_append_iff] at hfirst
      obtain ⟨first, later, rfl, hfirst, rfl⟩ := hfirst
      obtain ⟨parts, hparts, rfl⟩ := split_of_ofLine_eq hfirst.symm
      obtain ⟨ws, tail, ⟨upper, start, lower, rfl, hreads⟩, hws⟩ := ih hrest
      exact ⟨ws, tail, ⟨line :: upper, start, lower, rfl, .cons hparts hreads⟩, hws⟩
    · cases rest with
      | nil =>
        rw [List.append_nil] at hfirst
        obtain ⟨parts, hparts, rfl⟩ := split_of_ofLine_eq hfirst
        obtain ⟨ws, tail, ⟨upper, start, lower, rfl, hreads⟩, hws⟩ := @ih [] hrest.symm
        refine ⟨ws, tail, ⟨line :: upper, start, lower, rfl, ?_⟩, hws⟩
        simpa using hreads.cons hparts
      | cons b tail =>
        obtain ⟨rfl, -⟩ := List.cons.inj hrest
        obtain ⟨start, ws, parts, rfl, hparts, rfl, hws⟩ := split_of_ofLine hfirst
        refine ⟨ws, tail, ⟨[], start, lines, rfl, ?_⟩, hws⟩
        simpa using Reads.nil.cons hparts

end Before

section Shift

def Label.shift (n : Nat) (l : Label) : Label := ⟨l.name, ⟨l.span.offset + n, l.span.length⟩⟩

def Instr.shift (n : Nat) : Instr Label → Instr Label
  | .jump k l => .jump k (l.shift n)
  | i => i

def Statement.shift (n : Nat) : Statement → Statement
  | .instr i => .instr (i.shift n)
  | .label l => .label (l.shift n)

variable {line : List Token} {parts : List (List Token × Statement)} {lines : List (List Token)}
  {ss : List Statement}

theorem Written.shift (n : Nat) {ws : List Token} {s : Statement} (h : Written ws s) :
    Written (ws.map (Token.shift n)) (s.shift n) := by
  cases h with
  | label hd hn => exact .label hd hn
  | plain ht => exact .plain ht
  | jump ht hn => exact .jump ht hn
  | fixed ht hb ha => exact .fixed ht hb ha
  | held ht hb hr => exact .held ht hb hr
  | reg ht hr => exact .reg ht hr
  | imm ht hw => exact .imm ht hw

theorem Split.shift (n : Nat) (h : Split line parts) :
    Split (line.map (Token.shift n))
      (parts.map fun p => (p.1.map (Token.shift n), p.2.shift n)) := by
  induction parts generalizing line with
  | nil =>
    obtain rfl : line = [] := h.words.symm
    exact .nil
  | cons p parts ih =>
    obtain ⟨hp, rest, rfl, hrest⟩ := h.inversion
    rw [List.map_append]
    exact (ih hrest).cons (hp.shift n)

theorem Reads.shift (n : Nat) (h : Reads lines ss) :
    Reads (lines.map (List.map (Token.shift n))) (ss.map (Statement.shift n)) := by
  obtain ⟨splits, hsplits, rfl⟩ := h
  induction hsplits with
  | nil => exact .nil
  | cons hline _ ih =>
    have hcons := ih.cons (hline.shift n)
    rw [List.map_map] at hcons
    rw [List.flatten_cons, List.map_append, List.map_append, List.map_map]
    exact hcons

end Shift

section Labels

def Statement.labels : Statement → List Label
  | .label l => [l]
  | .instr (.jump _ l) => [l]
  | .instr _ => []

theorem Written.covers {cs : List Char} {ws : List Token} {s : Statement} (h : Written ws s)
    (hws : ∀ t ∈ ws, t.span.Covers cs t.text) :
    ∀ l ∈ s.labels, l.span.Covers cs l.name.toList := by
  intro l hl
  cases h with
  | @label t name hd hn =>
    obtain rfl := List.mem_singleton.mp hl
    have hword := hws t List.mem_cons_self
    rw [hd] at hword
    rw [String.toList_ofList]
    exact hword.left
  | @jump t arg k ht hn =>
    obtain rfl := List.mem_singleton.mp hl
    rw [String.toList_ofList]
    exact hws arg (List.mem_cons_of_mem t List.mem_cons_self)
  | plain => cases hl
  | fixed => cases hl
  | held => cases hl
  | reg => cases hl
  | imm => cases hl

theorem Reads.written {lines : List (List Token)} {ss : List Statement} (h : Reads lines ss)
    {s : Statement} (hs : s ∈ ss) : ∃ line ∈ lines, ∃ ws, Written ws s ∧ ∀ t ∈ ws, t ∈ line := by
  obtain ⟨splits, hsplits, rfl⟩ := h
  induction hsplits with
  | nil => cases hs
  | @cons line parts _ _ hline _ ih =>
    rw [List.flatten_cons, List.map_append, List.mem_append] at hs
    rcases hs with hs | hs
    · obtain ⟨p, hp, rfl⟩ := List.mem_map.mp hs
      refine ⟨line, List.mem_cons_self, p.1, hline.written p hp, ?_⟩
      intro t ht
      rw [← hline.words]
      exact List.mem_flatten.mpr ⟨p.1, List.mem_map_of_mem hp, ht⟩
    · obtain ⟨line, hmem, hwritten⟩ := ih hs
      exact ⟨line, List.mem_cons_of_mem _ hmem, hwritten⟩

/-- Every label of a program stands in the text where its span says, as it is named. -/
theorem Reads.covers {cs : List Char} {ss : List Statement} (h : Reads (Token.lines cs) ss)
    {s : Statement} (hs : s ∈ ss) : ∀ l ∈ s.labels, l.span.Covers cs l.name.toList := by
  obtain ⟨line, hline, ws, hws, hmem⟩ := h.written hs
  exact hws.covers fun t ht => Token.covers_of_mem_lines hline (hmem t ht)

end Labels

end StackMachine
