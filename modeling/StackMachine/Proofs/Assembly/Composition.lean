import StackMachine.Proofs.Assembly.Relabeling

/-!
# StackMachine.Proofs.Assembly.Composition

Two programs, one below the other.

* `Linked.append`, `Linked.rebase`: linked instructions behind others, all of them further on by
  the same distance, with their labels.
* `Listing.Holds.emit_append`: the code of statements behind others.
* `reads_newline`: the statements of a text with another one below it.
* `assemble_newline`: the code of such a text is the one code and then the other, unless the lower
  text defines a name of the upper one.
-/

namespace StackMachine

open Statement (names)

theorem Statement.names_shift (n : Nat) (ss : List Statement) :
    names (ss.map (shift n)) = names ss := by
  induction ss with
  | nil => rfl
  | cons s ss ih =>
    cases s with
    | instr i => exact ih
    | label d => exact congrArg (d.name :: ·) ih

theorem Instr.address_append_right {J : Type} (is js : List (Instr J)) (k : Nat) :
    address (is ++ js) (is.length + k) = address is is.length + address js k := by
  induction is with
  | nil => simp
  | cons i is ih =>
    rw [List.cons_append, List.length_cons, Nat.add_right_comm, address_cons, address_cons, ih,
      Nat.add_assoc]

section Linking

variable {symbols other : Symbols} {a n : Nat} {i : Instr Label} {j : Instr Offset}
  {is : List (Instr Label)} {js : List (Instr Offset)}

theorem Instr.resolve_eq_ok_iff : i.resolve a symbols = .ok j ↔ i.Means symbols a j := by
  constructor
  · exact means_of_resolve
  · intro h
    cases h with
    | jump ht hsum =>
      rw [resolve, Label.offset_eq_ok_iff.mpr ⟨_, ht, hsum⟩]
      rfl
    | plain => rfl
    | imm => rfl
    | reg => rfl
    | held => rfl
    | fixed => rfl

/-- A jump and its target move together, so the distance between them stays. -/
theorem Instr.Means.rebase (h : i.Means symbols a j)
    (hmove : ∀ name target, symbols.get? name = some target →
      other.get? name = some (target + n)) : i.Means other (a + n) j := by
  cases h with
  | jump ht hsum => exact .jump (hmove _ _ ht) (by omega)
  | plain op => exact .plain op
  | imm w => exact .imm w
  | reg m r => exact .reg m r
  | held m r => exact .held m r
  | fixed m x => exact .fixed m x

theorem Linked.rebase (h : Linked symbols a is js)
    (hmove : ∀ name target, symbols.get? name = some target →
      other.get? name = some (target + n)) : Linked other (a + n) is js := by
  induction h with
  | nil => exact .nil
  | cons hi _ ih =>
    rw [Nat.add_right_comm] at ih
    exact .cons (Instr.resolve_eq_ok_iff.mpr ((Instr.resolve_eq_ok_iff.mp hi).rebase hmove)) ih

theorem Linked.append {is' : List (Instr Label)} {js' : List (Instr Offset)}
    (h : Linked symbols a is js) (h' : Linked symbols (a + Instr.address is is.length) is' js') :
    Linked symbols a (is ++ is') (js ++ js') := by
  induction h with
  | nil => exact h'
  | cons hi _ ih =>
    rw [List.length_cons, Instr.address_cons, ← Nat.add_assoc] at h'
    exact .cons hi (ih h')

end Linking

section Symbols

variable {l m u : Listing} {ss ts : List Statement} {name : String} {target n : Nat}

theorem Listing.Holds.get?_append_left (hu : u.Holds (ss ++ ts)) (hl : l.Holds ss)
    (h : l.symbols.get? name = some target) : u.symbols.get? name = some target := by
  rw [hl.get?_eq, Option.map_eq_some_iff] at h
  obtain ⟨k, hk, rfl⟩ := h
  rw [hu.get?_eq, Statement.index?_append, hk, Option.some_or, Option.map_some,
    Statement.instrs_append, Instr.address_append _ (Statement.index?_le hk)]

theorem Listing.Holds.get?_append_right (hu : u.Holds (ss ++ ts)) (hl : l.Holds ss) (hm : m.Holds ts)
    (h : m.symbols.get? name = some target) :
    u.symbols.get? name = some (target + l.extent) := by
  have hextent : l.extent =
      Instr.address (Statement.instrs ss) (Statement.instrs ss).length := by
    rw [Listing.extent, Listing.instrs, hl.statements_eq]
  rw [hm.get?_eq, Option.map_eq_some_iff] at h
  obtain ⟨k, hk, rfl⟩ := h
  have hname : name ∈ names ts := by
    by_contra hfree
    rw [Statement.index?_eq_none_iff.mpr hfree] at hk
    cases hk
  have hfree : name ∉ names ss := by
    intro hupper
    have hnodup := hu.nodup
    rw [Statement.names_append] at hnodup
    exact List.disjoint_of_nodup_append hnodup hupper hname
  rw [hu.get?_eq, Statement.index?_append, Statement.index?_eq_none_iff.mpr hfree, hk,
    Option.none_or, Option.map_some, Option.map_some, Statement.instrs_append, Nat.add_comm k,
    Instr.address_append_right, hextent, Nat.add_comm]

theorem Listing.Holds.emit_append {c d : Code} (hu : u.Holds (ss ++ ts)) (hl : l.Holds ss)
    (hm : m.Holds ts) (hc : l.emit = .ok c) (hd : m.emit = .ok d) : u.emit = .ok (c ++ d) := by
  obtain ⟨js, hjs, rfl⟩ := emit_eq_ok_iff.mp hc
  obtain ⟨ks, hks, rfl⟩ := emit_eq_ok_iff.mp hd
  have hupper : Linked u.symbols 0 l.instrs js :=
    hjs.rebase (n := 0) fun name target h => hu.get?_append_left hl h
  have hlower : Linked u.symbols (0 + l.extent) m.instrs ks :=
    hks.rebase fun name target h => hu.get?_append_right hl hm h
  have hinstrs : u.instrs = l.instrs ++ m.instrs := by
    rw [Listing.instrs, Listing.instrs, Listing.instrs, hu.statements_eq, hl.statements_eq,
      hm.statements_eq, Statement.instrs_append]
  refine emit_eq_ok_iff.mpr ⟨js ++ ks, ?_, ?_⟩
  · rw [hinstrs]
    exact hupper.append hlower
  · simp [Instr.encodeAll]

end Symbols

section Newline

variable {cs ds : List Char} {ss ts : List Statement}

theorem reads_newline (hss : Reads (Token.lines cs) ss) (hts : Reads (Token.lines ds) ts) :
    Reads (Token.lines (cs ++ '\n' :: ds)) (ss ++ ts.map (Statement.shift (Utf8.size cs + 1))) := by
  rw [Token.lines_newline]
  exact hss.append (hts.shift _)

variable {l m : Listing} {c d : Code}

theorem emit_newline (hss : Reads (Token.lines cs) ss) (hts : Reads (Token.lines ds) ts)
    (hl : l.Holds ss) (hm : m.Holds ts) (hc : l.emit = .ok c) (hd : m.emit = .ok d)
    (hdisjoint : (names ss).Disjoint (names ts)) :
    ∃ u, Listing.ofText? (cs ++ '\n' :: ds) = .ok u ∧ u.emit = .ok (c ++ d) := by
  have hnodup : (names (ss ++ ts)).Nodup := by
    rw [Statement.names_append]
    exact hl.nodup.append hm.nodup hdisjoint
  obtain ⟨u, hu, hholds⟩ := Listing.addAll_of_nodup hnodup
  have hcode : Statement.assembleAll (ss ++ ts) = .ok (c ++ d) := by
    rw [Statement.assembleAll, hu]
    exact hholds.emit_append hl hm hc hd
  -- In the text the lower statements stand further on, which does not reach their code.
  have hbare : (ss ++ ts.map (Statement.shift (Utf8.size cs + 1))).map Statement.bare =
      (ss ++ ts).map Statement.bare := by
    rw [List.map_append, List.map_append, List.map_map]
    exact congrArg _ (List.map_congr_left fun s _ => s.bare_shift _)
  have hshifted := Statement.assembleAll_of_bare hbare hcode
  rw [Statement.assembleAll, ← (reads_newline hss hts).read, ← Statement.ofText,
    ← Listing.ofText?] at hshifted
  cases htext : Listing.ofText? (cs ++ '\n' :: ds) with
  | error e =>
    rw [htext] at hshifted
    cases hshifted
  | ok v =>
    rw [htext] at hshifted
    exact ⟨v, rfl, hshifted⟩

/-- The first of the definitions that share a name with others. -/
theorem Statement.exists_first_shared {taken : List String}
    (h : ¬ taken.Disjoint (names ts)) :
    ∃ upper label lower, ts = upper ++ .label label :: lower ∧ label.name ∈ taken ∧
      taken.Disjoint (names upper) := by
  induction ts with
  | nil => exact absurd (List.disjoint_nil_right taken) h
  | cons s ts ih =>
    cases s with
    | instr i =>
      obtain ⟨upper, label, lower, rfl, hlabel, hupper⟩ := ih h
      exact ⟨.instr i :: upper, label, lower, rfl, hlabel, hupper⟩
    | label d =>
      by_cases hd : d.name ∈ taken
      · exact ⟨[], d, ts, rfl, hd, List.disjoint_nil_right taken⟩
      · rw [names_label, List.disjoint_cons_right] at h
        obtain ⟨upper, label, lower, rfl, hlabel, hupper⟩ := ih fun hts => h ⟨hd, hts⟩
        refine ⟨.label d :: upper, label, lower, rfl, hlabel, ?_⟩
        rw [names_label, List.disjoint_cons_right]
        exact ⟨hd, hupper⟩

/-- A definition of the lower program that repeats a name of the upper is refused where it stands. -/
theorem ofText?_newline_shared (hss : Reads (Token.lines cs) ss) (hts : Reads (Token.lines ds) ts)
    (hl : (names ss).Nodup) (hm : (names ts).Nodup) {upper lower : List Statement} {label : Label}
    (hsplit : ts = upper ++ .label label :: lower) (hshared : label.name ∈ names ss)
    (hfirst : (names ss).Disjoint (names upper)) :
    Listing.ofText? (cs ++ '\n' :: ds) = .error ⟨.duplicateLabel label.name,
      ⟨label.span.offset + (Utf8.size cs + 1), label.span.length⟩⟩ := by
  subst hsplit
  have hread : Statement.ofText (cs ++ '\n' :: ds) =
      (ss ++ upper.map (Statement.shift (Utf8.size cs + 1))).map .ok ++
        .ok (.label (label.shift (Utf8.size cs + 1))) ::
          (lower.map (Statement.shift (Utf8.size cs + 1))).map .ok := by
    rw [Statement.ofText, (reads_newline hss hts).read]
    simp [Statement.shift]
  rw [Statement.names_append] at hm
  rw [Listing.ofText?, hread]
  refine Listing.addAll_of_refused ?_ (.redefined (d := label.shift _) ?_) _
  · rw [Statement.names_append, Statement.names_shift]
    exact hl.append (List.nodup_append.mp hm).1 hfirst
  · rw [Statement.names_append]
    exact List.mem_append_left _ hshared

end Newline

/-- Assembly is compositional: two texts one below the other give the one code and then the other.
If the lower one defines a name of the upper, its first such definition is reported instead. -/
theorem assemble_newline {s t : String} {c d : Code} (hs : assemble s = .ok c)
    (ht : assemble t = .ok d) :
    ∃ l m, Listing.ofText? s.toList = .ok l ∧ Listing.ofText? t.toList = .ok m ∧
      ((names l.statements.toList).Disjoint (names m.statements.toList) →
        assemble (s ++ "\n" ++ t) = .ok (c ++ d)) ∧
      (¬ (names l.statements.toList).Disjoint (names m.statements.toList) →
        ∃ upper label lower, m.statements.toList = upper ++ .label label :: lower ∧
          label.name ∈ names l.statements.toList ∧
          (names l.statements.toList).Disjoint (names upper) ∧
          assemble (s ++ "\n" ++ t) = .error ⟨.duplicateLabel label.name,
            ⟨label.span.offset + (Utf8.size s.toList + 1), label.span.length⟩⟩) := by
  obtain ⟨l, hl, hc⟩ := listing_of_assemble hs
  obtain ⟨m, hm, hd⟩ := listing_of_assemble ht
  obtain ⟨ss, hss, hlss⟩ := Listing.reads_of_ofText? hl
  obtain ⟨ts, hts, hmts⟩ := Listing.reads_of_ofText? hm
  refine ⟨l, m, hl, hm, ?_, ?_⟩
  · intro hdisjoint
    rw [hlss.statements_eq, hmts.statements_eq] at hdisjoint
    obtain ⟨u, hu, hcode⟩ := emit_newline hss hts hlss hmts hc hd hdisjoint
    rw [← toList_newline] at hu
    rw [assemble_of_ofText? hu, hcode]
  · intro hshared
    rw [hlss.statements_eq, hmts.statements_eq] at hshared
    obtain ⟨upper, label, lower, hsplit, hlabel, hupper⟩ := Statement.exists_first_shared hshared
    rw [hlss.statements_eq, hmts.statements_eq]
    refine ⟨upper, label, lower, hsplit, hlabel, hupper, assemble_of_ofText?_error ?_⟩
    rw [toList_newline]
    exact ofText?_newline_shared hss hts hlss.nodup hmts.nodup hsplit hlabel hupper

theorem assemble_newline_loops :
    assemble ("a: jmp a" ++ "\n" ++ "b: jmp b") = .ok (#[20, 0, 0, 0, 0] ++ #[20, 0, 0, 0, 0]) ∧
      assemble ("a: jmp a" ++ "\n" ++ "b: jmp b\na: halt") =
        .error ⟨.duplicateLabel "a", ⟨18, 1⟩⟩ := by
  have hupper : assemble "a: jmp a" = .ok #[20, 0, 0, 0, 0] := by decide +kernel
  have hlower : assemble "b: jmp b" = .ok #[20, 0, 0, 0, 0] := by decide +kernel
  have hagain : assemble "b: jmp b\na: halt" = .ok #[20, 0, 0, 0, 0, 11] := by decide +kernel
  have hstatements : ∀ ss {cs l}, Listing.ofText? cs = .ok l →
      (Listing.ofText? cs).map (·.statements.toList) = .ok ss → l.statements.toList = ss := by
    intro ss cs l hl h
    rw [hl] at h
    exact Except.ok.inj h
  constructor
  · obtain ⟨l, m, hl, hm, happend, -⟩ := assemble_newline hupper hlower
    have hls := hstatements [.label ⟨"a", ⟨0, 1⟩⟩, .instr (.jump .always ⟨"a", ⟨7, 1⟩⟩)] hl
      (by decide +kernel)
    have hms := hstatements [.label ⟨"b", ⟨0, 1⟩⟩, .instr (.jump .always ⟨"b", ⟨7, 1⟩⟩)] hm
      (by decide +kernel)
    rw [hls, hms] at happend
    exact happend (by simp)
  · obtain ⟨l, m, hl, hm, -, hshared⟩ := assemble_newline hupper hagain
    have hls := hstatements [.label ⟨"a", ⟨0, 1⟩⟩, .instr (.jump .always ⟨"a", ⟨7, 1⟩⟩)] hl
      (by decide +kernel)
    have hms := hstatements [.label ⟨"b", ⟨0, 1⟩⟩, .instr (.jump .always ⟨"b", ⟨7, 1⟩⟩),
      .label ⟨"a", ⟨9, 1⟩⟩, .instr (.plain .halt)] hm (by decide +kernel)
    rw [hls, hms] at hshared
    obtain ⟨upper, label, lower, hsplit, hname, -, herror⟩ := hshared (by simp)
    have hmem : Statement.label label ∈ upper ++ .label label :: lower := by simp
    rw [← hsplit] at hmem
    have hlabel : label = ⟨"a", ⟨9, 1⟩⟩ := by
      simp only [List.mem_cons, Statement.label.injEq, reduceCtorEq, List.not_mem_nil, or_false,
        false_or] at hmem
      rcases hmem with rfl | rfl
      · simp at hname
      · rfl
    rw [hlabel] at herror
    exact herror

end StackMachine
