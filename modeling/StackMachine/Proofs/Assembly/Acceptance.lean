import Mathlib.Data.List.Induction
import Mathlib.Data.List.Nodup
import StackMachine.Assembly.Draft
import StackMachine.Proofs.Assembly.Layout

/-!
# StackMachine.Proofs.Assembly.Acceptance

Which of the items that are offered to a draft it accepts, and what it is then.

* `Item.accepted`: the items left when every definition of a name defined before is taken out.
* `Item.table`: the names that items define, each with the sum of the sizes in front of it.
* `Draft.Holds`: a draft of certain items. Adding one keeps this or refuses a name that they define
  already, so that any additions leave the accepted items (`Draft.holds_addAll`).
* `Listing.addAll_draft`: what is added to a listing is added to its draft.
* `collect_state`: the parts of a draft after any additions, and what becomes of the next one.
-/

namespace StackMachine

namespace Item

def defined? : Item → Option Label
  | code _ _ => none
  | label l => some l

def names (is : List Item) : List String := (is.filterMap defined?).map Label.name

@[simp] theorem names_nil : names [] = [] := rfl

@[simp] theorem names_code (op : Opcode) (operand : Operand) (is : List Item) :
    names (code op operand :: is) = names is := rfl

@[simp] theorem names_label (l : Label) (is : List Item) :
    names (label l :: is) = l.name :: names is := rfl

theorem names_append (is js : List Item) : names (is ++ js) = names is ++ names js := by
  rw [names, List.filterMap_append, List.map_append]
  rfl

def redefines (taken : List String) : Item → Bool
  | code _ _ => false
  | label l => l.name ∈ taken

/-- The items without those definitions whose names are taken, by others before them or from the
start. -/
def accepted (taken : List String) : List Item → List Item
  | [] => []
  | i :: is =>
    if i.redefines taken then accepted (taken ++ names [i]) is
    else i :: accepted (taken ++ names [i]) is

theorem accepted_append (taken : List String) (is js : List Item) :
    accepted taken (is ++ js) = accepted taken is ++ accepted (taken ++ names is) js := by
  induction is generalizing taken with
  | nil => rw [names_nil, List.append_nil, accepted, List.nil_append, List.nil_append]
  | cons i is ih =>
    have hnames : names [i] ++ names is = names (i :: is) := (names_append [i] is).symm
    rw [List.cons_append, accepted, accepted, ih, List.append_assoc, hnames]
    split
    · rfl
    · rfl

theorem accepted_concat_of_redefines {is : List Item} {i : Item}
    (h : i.redefines (names is) = true) : accepted [] (is ++ [i]) = accepted [] is := by
  rw [accepted_append, List.nil_append, accepted, if_pos h, accepted, List.append_nil]

theorem accepted_concat {is : List Item} {i : Item} (h : ¬ i.redefines (names is) = true) :
    accepted [] (is ++ [i]) = accepted [] is ++ [i] := by
  rw [accepted_append, List.nil_append, accepted, if_neg h, accepted]

theorem names_accepted (is : List Item) : names (accepted [] is) = (names is).eraseDups := by
  induction is using List.reverseRecOn with
  | nil => rfl
  | append_singleton is i ih =>
    rw [names_append, List.eraseDups_append, ← ih]
    cases i with
    | code op operand => rw [accepted_concat (by simp [redefines]), names_append]; simp
    | label l =>
      by_cases hl : l.name ∈ names is
      · rw [accepted_concat_of_redefines (by simpa [redefines] using hl)]
        simp [List.removeAll, hl]
      · rw [accepted_concat (by simpa [redefines] using hl), names_append]
        simp [List.removeAll, List.eraseDups_cons, hl]

theorem mem_names_accepted {is : List Item} {name : String} :
    name ∈ names (accepted [] is) ↔ name ∈ names is := by
  rw [names_accepted, List.mem_eraseDups]

/-- The names that items define, each with its address. The first item stands at `a`. -/
def table (a : Nat) : List Item → List (String × Nat)
  | [] => []
  | code op _ :: is => table (a + op.size) is
  | label l :: is => (l.name, a) :: table a is

theorem table_append (a : Nat) (is js : List Item) :
    table a (is ++ js) = table a is ++ table (a + (is.map size).sum) js := by
  induction is generalizing a with
  | nil => rfl
  | cons i is ih =>
    cases i with
    | code op operand => simp [table, ih, size, Nat.add_assoc]
    | label l => simp [table, ih, size]

theorem map_fst_table (a : Nat) (is : List Item) : (table a is).map Prod.fst = names is := by
  induction is generalizing a with
  | nil => rfl
  | cons i is ih =>
    cases i with
    | code op operand => simp [table, ih]
    | label l => simp [table, ih]

theorem lookup_table_eq_none_iff {a : Nat} {is : List Item} {name : String} :
    (table a is).lookup name = none ↔ name ∉ names is := by
  rw [← map_fst_table a is, List.lookup_eq_none_iff, List.mem_map]
  constructor
  · rintro h ⟨e, he, rfl⟩
    simpa using h e he
  · intro h e he
    have hne : name ≠ e.1 := fun heq => h ⟨e, he, heq.symm⟩
    simpa using hne

/-- A name that is defined once stands for the sizes in front of its definition. -/
theorem lookup_table {before after : List Item} {l : Label}
    (hnodup : (names (before ++ label l :: after)).Nodup) :
    (table 0 (before ++ label l :: after)).lookup l.name = some (before.map size).sum := by
  have hfree : l.name ∉ names before := by
    rw [names_append, names_label] at hnodup
    exact fun hmem => List.disjoint_of_nodup_append hnodup hmem List.mem_cons_self
  rw [table_append, List.lookup_append, lookup_table_eq_none_iff.mpr hfree]
  simp [table]

theorem lookup_of_mem_table {a : Nat} {is : List Item} (hnodup : (names is).Nodup)
    {e : String × Nat} (he : e ∈ table a is) : (table a is).lookup e.1 = some e.2 := by
  induction is generalizing a with
  | nil => cases he
  | cons i is ih =>
    cases i with
    | code op operand => exact ih hnodup he
    | label l =>
      rw [names_label, List.nodup_cons] at hnodup
      rcases List.mem_cons.mp he with rfl | he
      · simp [table]
      · have hne : e.1 ≠ l.name := by
          intro heq
          refine hnodup.1 ?_
          rw [← heq, ← map_fst_table a is]
          exact List.mem_map_of_mem he
        have hbeq : (e.1 == l.name) = false := by simpa using hne
        rw [table, List.lookup_cons, hbeq]
        exact ih hnodup.2 he

end Item

namespace Draft

open Item (names)

/-- A draft of these items, which define no name twice. -/
structure Holds (d : Draft) (is : List Item) : Prop where
  items_eq : d.items.toList = is
  size_eq : d.size = (is.map Item.size).sum
  entries_eq : d.symbols.entries = Item.table 0 is
  nodup : (names is).Nodup

theorem holds_empty : empty.Holds [] := ⟨rfl, rfl, rfl, List.nodup_nil⟩

section Holds

variable {d : Draft} {is : List Item}

theorem Holds.get?_eq (h : d.Holds is) (name : String) :
    d.symbols.get? name = (Item.table 0 is).lookup name := by
  rw [Symbols.get?, h.entries_eq]

theorem Holds.get?_eq_none_iff (h : d.Holds is) {name : String} :
    d.symbols.get? name = none ↔ name ∉ names is := by
  rw [h.get?_eq, Item.lookup_table_eq_none_iff]

theorem Holds.add_of_redefines (h : d.Holds is) {l : Label} (hl : l.name ∈ names is) :
    d.add (.label l) = (some ⟨.duplicateLabel l.name, l.span⟩, d) := by
  obtain ⟨a, ha⟩ := Option.ne_none_iff_exists'.mp fun hnone => h.get?_eq_none_iff.mp hnone hl
  simp [add, Symbols.enter, ha]

theorem Holds.add (h : d.Holds is) {i : Item} (hi : ¬ i.redefines (names is) = true) :
    (d.add i).1 = none ∧ (d.add i).2.Holds (is ++ [i]) := by
  cases i with
  | code op operand =>
    refine ⟨rfl, ?_, ?_, ?_, ?_⟩
    · simp [Draft.add, h.items_eq]
    · simp [Draft.add, h.size_eq]
    · rw [Item.table_append]
      simp [Draft.add, h.entries_eq, Item.table]
    · rw [Item.names_append]
      simpa using h.nodup
  | label l =>
    have hfree : l.name ∉ names is := by simpa [Item.redefines] using hi
    have hnone := h.get?_eq_none_iff.mpr hfree
    refine ⟨?_, ?_, ?_, ?_, ?_⟩
    · simp [Draft.add, Symbols.enter, hnone]
    · simp [Draft.add, Symbols.enter, hnone, h.items_eq]
    · simp [Draft.add, Symbols.enter, hnone, h.size_eq]
    · rw [Item.table_append]
      simp [Draft.add, Symbols.enter, hnone, h.entries_eq, h.size_eq, Item.table]
    · rw [Item.names_append, Item.names_label, Item.names_nil, List.nodup_append_comm]
      exact List.nodup_cons.mpr ⟨hfree, h.nodup⟩

theorem Holds.add_eq_some_iff (h : d.Holds is) {i : Item} {e : AssemblyError} :
    (d.add i).1 = some e ↔
      ∃ l, i = .label l ∧ l.name ∈ names is ∧ e = ⟨.duplicateLabel l.name, l.span⟩ := by
  constructor
  · intro he
    by_cases hi : i.redefines (names is) = true
    · cases i with
      | code op operand => cases hi
      | label l =>
        have hl : l.name ∈ names is := by simpa [Item.redefines] using hi
        rw [h.add_of_redefines hl, Option.some.injEq] at he
        exact ⟨l, rfl, hl, he.symm⟩
    · rw [(h.add hi).1] at he
      cases he
  · rintro ⟨l, rfl, hl, rfl⟩
    rw [h.add_of_redefines hl]

theorem Holds.add_of_reports (h : d.Holds is) {i : Item} {e : AssemblyError}
    (he : (d.add i).1 = some e) : (d.add i).2 = d := by
  obtain ⟨l, rfl, hl, -⟩ := h.add_eq_some_iff.mp he
  rw [h.add_of_redefines hl]

end Holds

theorem addAll_concat (d : Draft) (is : List Item) (i : Item) :
    d.addAll (is ++ [i]) =
      ((d.addAll is).1 ++ [((d.addAll is).2.add i).1], ((d.addAll is).2.add i).2) :=
  addAll_append d is [i]

/-- What any items leave is a draft of those of them that were accepted. -/
theorem holds_addAll (is : List Item) : (empty.addAll is).2.Holds (Item.accepted [] is) := by
  induction is using List.reverseRecOn with
  | nil => exact holds_empty
  | append_singleton is i ih =>
    rw [addAll_concat]
    by_cases hi : i.redefines (names is) = true
    · rw [Item.accepted_concat_of_redefines hi]
      cases i with
      | code op operand => cases hi
      | label l =>
        have hl : l.name ∈ names is := by simpa [Item.redefines] using hi
        rw [ih.add_of_redefines (Item.mem_names_accepted.mpr hl)]
        exact ih
    · rw [Item.accepted_concat hi]
      refine (ih.add ?_).2
      cases i with
      | code op operand => exact hi
      | label l => simpa [Item.redefines, Item.mem_names_accepted] using hi

end Draft

namespace Listing

theorem offer_draft (l : Listing) (s : Statement) : (l.draft.add s.item).2 = (l.offer s).draft := by
  rw [add_draft, offer]
  cases l.add s <;> rfl

theorem addAll_draft (ss : List Statement) :
    (Draft.empty.addAll (ss.map Statement.item)).2 = (collect ss).draft := by
  have key : ∀ l : Listing, (l.draft.addAll (ss.map Statement.item)).2 =
      (ss.foldl offer l).draft := by
    induction ss with
    | nil => intro l; rfl
    | cons s ss ih =>
      intro l
      rw [List.map_cons, Draft.addAll, List.foldl_cons, offer_draft, ih]
  have hempty : empty.draft = Draft.empty := by simp [draft, empty, Draft.empty]
  rw [← hempty]
  exact key empty

end Listing

open Item (names)

/-- What a draft is after any additions, some of which may have failed, and what the next one comes
to. It fails exactly if it defines a name again, whatever became of the earlier definition, and then
leaves everything as it was. The draft consists of the items that did not fail, in order; its size
is the sum of theirs, and its table has every name once, in the order of the first definitions, with
the sum of the sizes in front of that definition. Statements that are collected make the same
draft as their items. -/
theorem collect_state :
    (∀ (is : List Item) (i : Item),
      let d := (Draft.empty.addAll is).2
      let kept := Item.accepted [] is
      (∀ e, (d.add i).1 = some e ↔
          ∃ l, i = .label l ∧ l.name ∈ names is ∧ e = ⟨.duplicateLabel l.name, l.span⟩) ∧
        (∀ e, (d.add i).1 = some e → (d.add i).2 = d) ∧
        Draft.empty.addAll (is ++ [i]) =
          ((Draft.empty.addAll is).1 ++ [(d.add i).1], (d.add i).2) ∧
        d.items.toList = kept ∧
        d.size = (kept.map Item.size).sum ∧
        d.symbols.entries.map Prod.fst = (names is).eraseDups ∧
        (∀ e ∈ d.symbols.entries, d.symbols.get? e.1 = some e.2) ∧
        (∀ (before after : List Item) (l : Label), kept = before ++ .label l :: after →
          d.symbols.get? l.name = some (before.map Item.size).sum) ∧
        ∀ name, d.symbols.get? name = none ↔ name ∉ names is) ∧
    ∀ ss : List Statement,
      (Draft.empty.addAll (ss.map Statement.item)).2 = (Listing.collect ss).draft := by
  refine ⟨?_, Listing.addAll_draft⟩
  intro is i d kept
  have h : d.Holds kept := Draft.holds_addAll is
  have hreports : ∀ e, (d.add i).1 = some e ↔
      ∃ l, i = .label l ∧ l.name ∈ names is ∧ e = ⟨.duplicateLabel l.name, l.span⟩ := by
    intro e
    rw [h.add_eq_some_iff]
    simp only [kept, Item.mem_names_accepted]
  refine ⟨hreports, fun _ => h.add_of_reports, Draft.addAll_concat _ is i, h.items_eq, h.size_eq,
    ?_, ?_, ?_, ?_⟩
  · rw [h.entries_eq, Item.map_fst_table, Item.names_accepted]
  · intro e he
    rw [h.entries_eq] at he
    rw [h.get?_eq, Item.lookup_of_mem_table h.nodup he]
  · intro before after l hkept
    have hnodup := h.nodup
    rw [hkept] at hnodup
    rw [h.get?_eq, hkept, Item.lookup_table hnodup]
  · intro name
    rw [h.get?_eq_none_iff, Item.mem_names_accepted]

end StackMachine
