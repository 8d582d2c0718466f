import StackMachine.Assembly.Emission

/-!
# StackMachine.Assembly.Draft

Programs put together by hand, in which any opcode may stand before any operand.

* `Item`: an opcode and an operand, or the definition of a label. Its size goes by the opcode, its
  bytes by the operand; only where the two belong together is one the number of the other.
* `Draft.add`, `Draft.addAll`: additions to a program that is changed in place, and what each of
  them reports.
* `Draft.emit`: the code of a draft.
* `Statement.item`, `Listing.draft`: statements are the items whose operands are those that their
  opcodes ask for. `Listing.add_draft`, `Listing.emit_draft`: additions and code are the same.
-/

namespace StackMachine

inductive Item.Operand where
  | none
  | register (r : Reg)
  | value (w : Word)
  | address (a : Int32)
  | target (l : Label)
deriving DecidableEq

inductive Item where
  | code (op : Opcode) (operand : Item.Operand)
  | label (l : Label)
deriving DecidableEq

def Item.Operand.encode (address : Nat) (symbols : Symbols) :
    Item.Operand → Except AssemblyError (List UInt8)
  | .none => .ok []
  | .register r => .ok [r.code]
  | .value w => .ok w.bytes
  | .address a => .ok (int32Bytes a)
  | .target l => (l.offset address symbols).map int32Bytes

namespace Item

def size : Item → Nat
  | code op _ => op.size
  | label _ => 0

def encode (address : Nat) (symbols : Symbols) : Item → Except AssemblyError (List UInt8)
  | code op operand => (operand.encode address symbols).map (op.byte :: ·)
  | label _ => .ok []

def emit (i : Item) (address : Nat) (symbols : Symbols) (out : Code) :
    Option AssemblyError × Code :=
  match i.encode address symbols with
  | .error e => (some e, out)
  | .ok bytes => (none, out ++ bytes.toArray)

/-- Each item is emitted at the address where the code ends, whatever the sizes before it say. -/
def emitAll (symbols : Symbols) : List Item → Code → Except AssemblyError Code
  | [], out => .ok out
  | i :: rest, out =>
    match i.emit out.size symbols out with
    | (some e, _) => .error e
    | (none, out) => emitAll symbols rest out

end Item

def Symbols.enter (t : Symbols) (name : String) (address : Nat) : Option Nat × Symbols :=
  match t.get? name with
  | some previous => (some previous, t)
  | none => (none, { t with entries := t.entries ++ [(name, address)] })

/-- `size` is the sum of the sizes, at which the next label will stand. -/
structure Draft where
  items : Array Item
  symbols : Symbols
  size : Nat

namespace Draft

def empty : Draft := ⟨#[], .empty, 0⟩

/-- The table is written first, then the size and the items. What is left after an error is what
was written until then. -/
def add (d : Draft) (i : Item) : Option AssemblyError × Draft :=
  let entered : Option AssemblyError × Draft :=
    match i with
    | .code _ _ => (none, d)
    | .label l =>
      let result := d.symbols.enter l.name d.size
      (result.1.map fun _ => ⟨.duplicateLabel l.name, l.span⟩, { d with symbols := result.2 })
  match entered with
  | (some e, d) => (some e, d)
  | (none, d) => (none, { d with size := d.size + i.size, items := d.items.push i })

/-- One addition after another, with what each of them reports. A refused one ends nothing. -/
def addAll (d : Draft) : List Item → List (Option AssemblyError) × Draft
  | [] => ([], d)
  | i :: is =>
    let rest := (d.add i).2.addAll is
    ((d.add i).1 :: rest.1, rest.2)

def emit (d : Draft) : Except AssemblyError Code := Item.emitAll d.symbols d.items.toList #[]

theorem addAll_append (d : Draft) (is js : List Item) :
    d.addAll (is ++ js) =
      ((d.addAll is).1 ++ ((d.addAll is).2.addAll js).1, ((d.addAll is).2.addAll js).2) := by
  induction is generalizing d with
  | nil => rfl
  | cons i is ih => simp only [List.cons_append, addAll, ih]

end Draft

section Statements

def Instr.operand : Instr Label → Item.Operand
  | plain _ => .none
  | imm w => .value w
  | reg _ r => .register r
  | held _ r => .register r
  | fixed _ a => .address a
  | jump _ l => .target l

def Statement.item : Statement → Item
  | instr i => .code i.opcode i.operand
  | label l => .label l

def Listing.draft (l : Listing) : Draft := ⟨l.statements.map Statement.item, l.symbols, l.size⟩

theorem Statement.encode_item (address : Nat) (symbols : Symbols) (s : Statement) :
    s.item.encode address symbols = s.encode address symbols := by
  cases s with
  | label l => rfl
  | instr i =>
    cases i with
    | jump k l =>
      simp only [item, Item.encode, Instr.operand, Item.Operand.encode, encode, Instr.resolve]
      cases l.offset address symbols <;> rfl
    | plain op => rfl
    | imm w => rfl
    | reg m r => rfl
    | held m r => rfl
    | fixed m a => rfl

theorem Statement.emit_item (address : Nat) (symbols : Symbols) (out : Code) (s : Statement) :
    s.item.emit address symbols out = s.emit address symbols out := by
  cases h : s.encode address symbols with
  | error e => simp only [Item.emit, emit, encode_item, h]
  | ok bytes => simp only [Item.emit, emit, encode_item, h]

theorem Statement.emitAll_item (symbols : Symbols) (ss : List Statement) (out : Code) :
    Item.emitAll symbols (ss.map item) out = emitAll symbols ss out := by
  induction ss generalizing out with
  | nil => rfl
  | cons s ss ih =>
    simp only [List.map_cons, Item.emitAll, emitAll, emit_item]
    rcases s.emit out.size symbols out with ⟨e?, after⟩
    cases e? with
    | some e => rfl
    | none => exact ih after

namespace Listing

theorem add_draft (l : Listing) (s : Statement) :
    l.draft.add s.item =
      match l.add s with
      | .ok m => (none, m.draft)
      | .error e => (some e, l.draft) := by
  cases s with
  | instr i => simp [add_instr, Draft.add, draft, Statement.item, Item.size, Instr.size]
  | label d =>
    simp only [Statement.item, Draft.add, Symbols.enter, draft, add, define, Symbols.insert]
    cases l.symbols.get? d.name with
    | some a => rfl
    | none => simp [Item.size, Statement.item]

theorem emit_draft (l : Listing) : l.draft.emit = l.emit := by
  rw [Draft.emit, emit, ← Statement.emitAll_item, draft, Array.toList_map]

end Listing

end Statements

end StackMachine
