import StackMachine.Proofs.Assembly.Acceptance
import StackMachine.Proofs.Assembly.Relabeling

/-!
# StackMachine.Proofs.Assembly.Renaming

Drafts with other names for their labels, and with labels that nothing uses.

* `Item.rename`, `Draft.rename`: the same with other names. `Draft.addAll_rename`,
  `Draft.emit_rename`: additions and code are the same, up to the names in errors.
* `Item.emitAll_of_kept`: a table in which nothing is lost gives the same code.
* `Draft.Holds.get?_insert`: a definition of a new name moves no address.
* `labels_are_markers`: neither it nor other names for all labels change anything about the code.
-/

namespace StackMachine

open Item (names)

section Rename

variable (r : String → String)

def Item.Operand.rename : Item.Operand → Item.Operand
  | target l => .target (l.relabel r id)
  | operand => operand

def Item.rename : Item → Item
  | code op operand => .code op (operand.rename r)
  | label l => .label (l.relabel r id)

def Draft.rename (d : Draft) : Draft := ⟨d.items.map (Item.rename r), d.symbols.rename r, d.size⟩

@[simp] theorem Draft.rename_empty : Draft.empty.rename r = .empty := by
  simp [Draft.rename, empty, Symbols.rename, Symbols.empty]

end Rename

section Injective

variable {r : String → String} (hr : Function.Injective r)

include hr

theorem Symbols.enter_rename (t : Symbols) (name : String) (address : Nat) :
    (t.rename r).enter (r name) address =
      ((t.enter name address).1, (t.enter name address).2.rename r) := by
  rw [enter, enter, get?_rename hr]
  cases t.get? name with
  | some previous => rfl
  | none => simp [rename]

theorem Draft.add_rename (d : Draft) (i : Item) :
    (d.rename r).add (i.rename r) =
      ((d.add i).1.map (AssemblyError.relabel r id), (d.add i).2.rename r) := by
  cases i with
  | code op operand => simp [add, rename, Item.rename, Item.size]
  | label l =>
    simp only [add, rename, Item.rename, Label.relabel, Symbols.enter_rename hr]
    rcases d.symbols.enter l.name d.size with ⟨previous?, t⟩
    cases previous? with
    | some previous => rfl
    | none => simp [Item.size, Item.rename, Label.relabel]

theorem Draft.addAll_rename (d : Draft) (is : List Item) :
    (d.rename r).addAll (is.map (Item.rename r)) =
      ((d.addAll is).1.map (Option.map (AssemblyError.relabel r id)),
        (d.addAll is).2.rename r) := by
  induction is generalizing d with
  | nil => rfl
  | cons i is ih => simp only [List.map_cons, addAll, add_rename hr, ih]

theorem Item.Operand.encode_rename (address : Nat) (symbols : Symbols) (operand : Item.Operand) :
    (operand.rename r).encode address (symbols.rename r) =
      (operand.encode address symbols).mapError (AssemblyError.relabel r id) := by
  cases operand with
  | target l =>
    simp only [rename, encode, Label.relabel, Label.offset, Symbols.get?_rename hr]
    cases symbols.get? l.name with
    | none => rfl
    | some address' =>
      simp only
      cases offset? address' address <;> rfl
  | none => rfl
  | register x => rfl
  | value w => rfl
  | address a => rfl

theorem Item.emit_rename (address : Nat) (symbols : Symbols) (out : Code) (i : Item) :
    (i.rename r).emit address (symbols.rename r) out =
      ((i.emit address symbols out).1.map (AssemblyError.relabel r id),
        (i.emit address symbols out).2) := by
  cases i with
  | label l => rfl
  | code op operand =>
    simp only [rename, emit, encode, Operand.encode_rename hr]
    cases operand.encode address symbols <;> rfl

theorem Item.emitAll_rename (symbols : Symbols) (is : List Item) (out : Code) :
    emitAll (symbols.rename r) (is.map (rename r)) out =
      (emitAll symbols is out).mapError (AssemblyError.relabel r id) := by
  induction is generalizing out with
  | nil => rfl
  | cons i is ih =>
    simp only [List.map_cons, emitAll, emit_rename hr]
    rcases i.emit out.size symbols out with ⟨e?, after⟩
    cases e? with
    | some e => rfl
    | none => exact ih after

theorem Draft.emit_rename (d : Draft) :
    (d.rename r).emit = d.emit.mapError (AssemblyError.relabel r id) := by
  rw [emit, emit, ← Item.emitAll_rename hr, rename, Array.toList_map]

end Injective

section Insert

def Symbols.Kept (t u : Symbols) : Prop := ∀ name a, t.get? name = some a → u.get? name = some a

variable {t u : Symbols} (hkept : t.Kept u)

include hkept

theorem Label.offset_of_kept {address : Nat} {l : Label} {d : Offset}
    (h : l.offset address t = .ok d) : l.offset address u = .ok d := by
  rw [Label.offset_eq_ok_iff] at h ⊢
  obtain ⟨target, ht, hd⟩ := h
  exact ⟨target, hkept _ _ ht, hd⟩

theorem Item.Operand.encode_of_kept {address : Nat} {operand : Item.Operand} {bytes : List UInt8}
    (h : operand.encode address t = .ok bytes) : operand.encode address u = .ok bytes := by
  cases operand with
  | target l =>
    simp only [encode] at h ⊢
    cases hl : l.offset address t with
    | error e =>
      rw [hl] at h
      cases h
    | ok d =>
      rw [hl] at h
      rw [Label.offset_of_kept hkept hl]
      exact h
  | none => exact h
  | register x => exact h
  | value w => exact h
  | address a => exact h

theorem Item.emit_of_kept {address : Nat} {i : Item} {out after : Code}
    (h : i.emit address t out = (none, after)) : i.emit address u out = (none, after) := by
  cases i with
  | label l => exact h
  | code op operand =>
    simp only [emit, encode] at h ⊢
    cases ho : operand.encode address t with
    | error e =>
      rw [ho] at h
      cases h
    | ok bytes =>
      rw [ho] at h
      rw [Operand.encode_of_kept hkept ho]
      exact h

theorem Item.emitAll_of_kept {is : List Item} {out code : Code}
    (h : emitAll t is out = .ok code) : emitAll u is out = .ok code := by
  induction is generalizing out with
  | nil => exact h
  | cons i is ih =>
    simp only [emitAll] at h ⊢
    rcases hi : i.emit out.size t out with ⟨e?, after⟩
    rw [hi] at h
    cases e? with
    | some e => cases h
    | none =>
      rw [emit_of_kept hkept hi]
      exact ih h

omit hkept

/-- A definition adds nothing to code. -/
theorem Item.emitAll_insert (before after : List Item) (l : Label) (out : Code) :
    emitAll t (before ++ label l :: after) out = emitAll t (before ++ after) out := by
  induction before generalizing out with
  | nil => simp [emitAll, emit, encode]
  | cons i before ih =>
    simp only [List.cons_append, emitAll]
    rcases i.emit out.size t out with ⟨e?, rest⟩
    cases e? with
    | some e => rfl
    | none => exact ih rest

end Insert

namespace Draft

variable {before after : List Item} {l : Label}

/-- Only the new name is found in another way. -/
theorem Holds.get?_insert {d m : Draft} (hd : d.Holds (before ++ after))
    (hm : m.Holds (before ++ .label l :: after)) {name : String} (h : name ≠ l.name) :
    m.symbols.get? name = d.symbols.get? name := by
  have hbeq : (name == l.name) = false := by simpa using h
  rw [hm.get?_eq, hd.get?_eq, Item.table_append, Item.table_append, List.lookup_append,
    List.lookup_append, Item.table, List.lookup_cons, hbeq]

theorem reports_of_holds {is js : List Item} {d : Draft} (hd : d.Holds is)
    (hnodup : (names (is ++ js)).Nodup) :
    (∀ e? ∈ (d.addAll js).1, e? = none) ∧ (d.addAll js).2.Holds (is ++ js) := by
  induction js generalizing d is with
  | nil =>
    rw [List.append_nil]
    exact ⟨fun _ he => absurd he List.not_mem_nil, hd⟩
  | cons i js ih =>
    have hfree : ¬ i.redefines (names is) = true := by
      cases i with
      | code op operand => simp [Item.redefines]
      | label l =>
        rw [Item.names_append, Item.names_label] at hnodup
        simpa [Item.redefines] using
          fun hmem => List.disjoint_of_nodup_append hnodup hmem List.mem_cons_self
    obtain ⟨hreport, hholds⟩ := hd.add hfree
    have hsplit : is ++ i :: js = (is ++ [i]) ++ js := by simp
    rw [hsplit] at hnodup ⊢
    obtain ⟨hreports, hall⟩ := ih hholds hnodup
    refine ⟨?_, hall⟩
    intro e? he
    rcases List.mem_cons.mp he with rfl | he
    · exact hreport
    · exact hreports e? he

theorem holds_of_reports {is js : List Item} {d : Draft} (hd : d.Holds is)
    (h : ∀ e? ∈ (d.addAll js).1, e? = none) : (d.addAll js).2.Holds (is ++ js) := by
  induction js generalizing d is with
  | nil => rwa [List.append_nil]
  | cons i js ih =>
    have hfirst : (d.add i).1 = none := h _ List.mem_cons_self
    have hfree : ¬ i.redefines (names is) = true := by
      intro hi
      cases i with
      | code op operand => cases hi
      | label l =>
        rw [hd.add_of_redefines (by simpa [Item.redefines] using hi)] at hfirst
        cases hfirst
    have hall := ih (hd.add hfree).2 fun e? he => h e? (List.mem_cons_of_mem _ he)
    rwa [List.append_assoc] at hall

end Draft

/-- Labels are pure markers. With other names for all labels, different ones for different ones, each
addition comes to the same and so does emission; an error has the other name at the same place. And
a definition of a new name, at any place in a program, changes nothing about its code. The size that
the code is checked against at its end is the same each time. -/
theorem labels_are_markers :
    (∀ r : String → String, Function.Injective r → ∀ is : List Item,
      let made := Draft.empty.addAll is
      let renamed := Draft.empty.addAll (is.map (Item.rename r))
      renamed.1 = made.1.map (Option.map (AssemblyError.relabel r id)) ∧
        renamed.2.emit = made.2.emit.mapError (AssemblyError.relabel r id) ∧
        renamed.2.size = made.2.size) ∧
    ∀ (before after : List Item) (l : Label) (code : Code),
      let made := Draft.empty.addAll (before ++ after)
      let marked := Draft.empty.addAll (before ++ .label l :: after)
      (∀ e? ∈ made.1, e? = none) → made.2.emit = .ok code → l.name ∉ names (before ++ after) →
      (∀ e? ∈ marked.1, e? = none) ∧ marked.2.emit = .ok code ∧ marked.2.size = made.2.size := by
  constructor
  · intro r hr is made renamed
    have hrenamed : renamed = (made.1.map (Option.map (AssemblyError.relabel r id)),
        made.2.rename r) := by
      have hall := Draft.addAll_rename hr .empty is
      rwa [Draft.rename_empty] at hall
    rw [hrenamed]
    exact ⟨rfl, Draft.emit_rename hr made.2, rfl⟩
  · intro before after l code made marked hmade hcode hl
    have hholds : made.2.Holds (before ++ after) := Draft.holds_of_reports Draft.holds_empty hmade
    have hnodup : (names (before ++ .label l :: after)).Nodup := by
      have hnodup := hholds.nodup
      rw [Item.names_append] at hnodup hl
      rw [Item.names_append, Item.names_label, List.nodup_middle, List.nodup_cons]
      exact ⟨hl, hnodup⟩
    obtain ⟨hreports, hmarked⟩ : (∀ e? ∈ marked.1, e? = none) ∧
        marked.2.Holds (before ++ .label l :: after) :=
      Draft.reports_of_holds Draft.holds_empty hnodup
    have hkept : made.2.symbols.Kept marked.2.symbols := by
      intro name a ha
      have hne : name ≠ l.name := by
        rintro rfl
        rw [hholds.get?_eq_none_iff.mpr hl] at ha
        cases ha
      rw [hholds.get?_insert hmarked hne]
      exact ha
    refine ⟨hreports, ?_, ?_⟩
    · rw [Draft.emit, hholds.items_eq] at hcode
      rw [Draft.emit, hmarked.items_eq, Item.emitAll_insert]
      exact Item.emitAll_of_kept hkept hcode
    · rw [hmarked.size_eq, hholds.size_eq]
      simp [Item.size]

/-- A jump forward and one back, and between them an opcode without its operand, which counts nine
bytes and gives one. The names get a letter more, and a label comes before the second jump. -/
theorem labels_are_markers_loop :
    let r := fun name => "x" ++ name
    let named (name : String) : Label := ⟨name, ⟨0, 1⟩⟩
    let before := [Item.code (.jump .always) (.target (named "b")), .label (named "a"),
      .code .imm .none]
    let after := [Item.code (.jump .call) (.target (named "a")), .label (named "b")]
    let code : Code := #[20, 19, 0, 0, 0, 14, 27, 255, 255, 255, 255]
    Function.Injective r ∧
      (Draft.empty.addAll ((before ++ after).map (Item.rename r))).2.emit = .ok code ∧
      (Draft.empty.addAll ((before ++ after ++ [Item.label (named "a")]).map (Item.rename r))).1 =
        [none, none, none, none, none, some ⟨.duplicateLabel "xa", ⟨0, 1⟩⟩] ∧
      (Draft.empty.addAll (before ++ .label (named "c") :: after)).2.emit = .ok code := by
  intro r named before after code
  have hr : Function.Injective r := by
    intro name other h
    have hlist := congrArg String.toList h
    rw [String.toList_append, String.toList_append] at hlist
    exact String.toList_inj.mp (List.append_cancel_left hlist)
  obtain ⟨hrename, hinsert⟩ := labels_are_markers
  have hcode : (Draft.empty.addAll (before ++ after)).2.emit = .ok code := by decide +kernel
  have hreports : ∀ e? ∈ (Draft.empty.addAll (before ++ after)).1, e? = none := by decide +kernel
  have hagain : (Draft.empty.addAll (before ++ after ++ [Item.label (named "a")])).1 =
      [none, none, none, none, none, some ⟨.duplicateLabel "a", ⟨0, 1⟩⟩] := by
    decide +kernel
  obtain ⟨-, hemit, -⟩ := hrename r hr (before ++ after)
  obtain ⟨hadds, -, -⟩ := hrename r hr (before ++ after ++ [Item.label (named "a")])
  refine ⟨hr, ?_, ?_, (hinsert before after (named "c") code hreports hcode (by decide)).2.1⟩
  · rw [hemit, hcode]
    rfl
  · rw [hadds, hagain]
    rfl

end StackMachine
