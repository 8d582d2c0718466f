import StackMachine.Assembly.Error
import StackMachine.Assembly.Statement
import StackMachine.Decimal.Literal
import StackMachine.Source.Token

/-!
# StackMachine.Source.Statement

Reading statements from the words of a line.

* `Form`: a complete statement, or what its first word asks of the next one.
* `Form.ofWord`: reads a first word.
* `jumpOperand`, `moveOperand`: complete a statement with its operand word.
* `Statement.ofLine`: the statements of a line, up to and with its first error.
* `Statement.ofText`: those of a text, line by line.

A statement is a name with a colon, which defines a label, or a mnemonic, followed by an operand on
the same line where it needs one. Mnemonics and registers are read in any case, labels as written.
-/

namespace StackMachine

/-- A label is an ASCII letter or `_`, followed by letters, digits and `_`. -/
def isLabelName : List Char → Bool
  | [] => false
  | c :: cs => (c.isAlpha || c == '_') && cs.all fun d => d.isAlphanum || d == '_'

/-- What a word without its last character would be, if that one is as given. -/
def stripLast? (last : Char) (cs : List Char) : Option (List Char) :=
  if cs.getLast? = some last then some cs.dropLast else none

def bracketed? : List Char → Option (List Char)
  | '[' :: cs => stripLast? ']' cs
  | _ => none

def looksNumeric : List Char → Bool
  | [] => false
  | c :: _ => Decimal.isDigit c || c == '-' || c == '+'

/-- A whole number that a signed 32-bit operand can hold and that is not negative. -/
def address? (cs : List Char) : Option Int32 :=
  match Decimal.signed? cs with
  | some n => if 0 ≤ n ∧ n ≤ Int32.maxValue.toInt then some (Int32.ofInt n) else none
  | none => none

/-- What a statement may ask for after its first word. -/
inductive Form where
  /-- Nothing: the statement is complete. -/
  | whole (s : Statement)
  /-- The name of a label. -/
  | jump (kind : Jump)
  /-- A place, or for `push` a number. -/
  | move (m : Move)

def Token.error (t : Token) (d : Defect) : AssemblyError := ⟨d, t.span⟩

def Token.name (t : Token) : String := String.ofList t.text

/-- The definition of a label; its span leaves the colon out. -/
def labelDefinition (t : Token) (name : List Char) : Except AssemblyError Statement :=
  if isLabelName name then .ok (.label ⟨String.ofList name, ⟨t.start, Utf8.size name⟩⟩)
  else .error (t.error (.invalidLabel (String.ofList name)))

def Form.ofWord (t : Token) : Except AssemblyError Form :=
  match stripLast? ':' t.text with
  | some name => (labelDefinition t name).map whole
  | none =>
    let mnemonic := t.text.map Char.toLower
    match Plain.ofMnemonic? mnemonic, Jump.ofMnemonic? mnemonic, Move.ofMnemonic? mnemonic with
    | some op, _, _ => .ok (whole (.instr (.plain op)))
    | none, some k, _ => .ok (jump k)
    | none, none, some m => .ok (move m)
    | none, none, none => .error (t.error (.unknownMnemonic t.name))

def jumpOperand (k : Jump) (t : Token) : Except AssemblyError Statement :=
  if isLabelName t.text then .ok (.instr (.jump k ⟨t.name, t.span⟩))
  else .error (t.error (.invalidLabel t.name))

def registerAt (m : Move) (name : List Char) (span : Span) : Except AssemblyError Reg :=
  match Reg.ofName? name with
  | some r => .ok r
  | none => .error ⟨.invalidRegister m.mnemonic (String.ofList name), span⟩

def ramOperand (m : Move) (t : Token) (inner : List Char) : Except AssemblyError Statement :=
  let span : Span := ⟨t.start + 1, Utf8.size inner⟩
  if inner.isEmpty then .error (t.error (.emptyArgument m.mnemonic))
  else if looksNumeric inner then
    match address? inner with
    | some a => .ok (.instr (.fixed m a))
    | none => .error ⟨.invalidAddress m.mnemonic (String.ofList inner), span⟩
  else (registerAt m inner span).map fun r => .instr (.held m r)

def immediate? : Move → List Char → Option Word
  | .push, cs => Decimal.literal? cs
  | .pop, _ => none

/-- The operand of `push` or `pop`. A number goes before a register. -/
def moveOperand (m : Move) (t : Token) : Except AssemblyError Statement :=
  match bracketed? t.text with
  | some inner => ramOperand m t inner
  | none =>
    match immediate? m t.text with
    | some w => .ok (.instr (.imm w))
    | none => (registerAt m t.text t.span).map fun r => .instr (.reg m r)

/-- The place just past a word, where its operand is missing. -/
def missingOperand (t : Token) (mnemonic : String) : AssemblyError :=
  ⟨.emptyArgument mnemonic, ⟨t.span.finish, 0⟩⟩

namespace Statement

/-- The statements of a line. After an error nothing more is read. -/
def ofLine : List Token → List (Except AssemblyError Statement)
  | [] => []
  | t :: ts =>
    match Form.ofWord t with
    | .error e => [.error e]
    | .ok (.whole s) => .ok s :: ofLine ts
    | .ok (.jump k) =>
      match ts with
      | [] => [.error (missingOperand t k.mnemonic)]
      | arg :: ts =>
        match jumpOperand k arg with
        | .error e => [.error e]
        | .ok s => .ok s :: ofLine ts
    | .ok (.move m) =>
      match ts with
      | [] => [.error (missingOperand t m.mnemonic)]
      | arg :: ts =>
        match moveOperand m arg with
        | .error e => [.error e]
        | .ok s => .ok s :: ofLine ts

theorem ofLine_nil : ofLine [] = [] := by rw [ofLine]

def ofText (cs : List Char) : List (Except AssemblyError Statement) :=
  (Token.lines cs).flatMap ofLine

end Statement
end StackMachine
