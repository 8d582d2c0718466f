/-!
# StackMachine.Word

The 64-bit word, the only kind of value the machine moves. Arithmetic reads its bits as a double,
addressing reads the same bits as an unsigned number.

* `Word.add`, `Word.sub`, `Word.mul`, `Word.div`, `Word.sin`, `Word.cos`, `Word.sqrt`: arithmetic.
* `Word.near`, `Word.exceeds`, `Word.fallsShort`: comparison up to `Word.tolerance`.

Moving a word never looks at it, so every bit of it is kept; only arithmetic makes new words.
-/

namespace StackMachine

structure Word where
  bits : UInt64
deriving DecidableEq, Inhabited

namespace Word

def zero : Word := ⟨0⟩

/-- The number of fractions that a double can have: the fraction field has 52 bits. -/
def fractionSize : Nat := 0x0010000000000000

def signBit : Nat := 0x8000000000000000

def toNat (w : Word) : Nat := w.bits.toNat

def toFloat (w : Word) : Float := Float.ofBits w.bits

/-- Whether the exponent field is full and the fraction is not empty. -/
def isNaN (w : Word) : Bool := decide (0x7ff0000000000000 < w.bits &&& 0x7fffffffffffffff)

/-- The same word with the leading fraction bit set, as arithmetic hands on a NaN operand. -/
def quiet (w : Word) : Word := ⟨w.bits ||| 0x0008000000000000⟩

/-- What an operation without a meaningful result yields from operands that are numbers. -/
def indefinite : Word := ⟨0xfff8000000000000⟩

def ofFloat (x : Float) : Word := if x.isNaN then indefinite else ⟨x.toBits⟩

/-- A function of one double on words; a NaN operand passes through, made quiet. -/
def lift (f : Float → Float) (w : Word) : Word :=
  if w.isNaN then w.quiet else ofFloat (f w.toFloat)

/-- A function of two doubles on words; a NaN operand passes through, the left one first. -/
def lift₂ (f : Float → Float → Float) (l r : Word) : Word :=
  if l.isNaN then l.quiet else if r.isNaN then r.quiet else ofFloat (f l.toFloat r.toFloat)

def add : Word → Word → Word := lift₂ (· + ·)
def sub : Word → Word → Word := lift₂ (· - ·)
def mul : Word → Word → Word := lift₂ (· * ·)
def div : Word → Word → Word := lift₂ (· / ·)
def sin : Word → Word := lift Float.sin
def cos : Word → Word := lift Float.cos
def sqrt : Word → Word := lift Float.sqrt

/-- How far apart two doubles may be and still count as equal: `1e-9`. -/
def tolerance : Float := Float.ofBits 0x3e112e0be826d695

def near (l r : Word) : Bool := (r.toFloat - l.toFloat).abs < tolerance

def exceeds (l r : Word) : Bool := r.toFloat + tolerance < l.toFloat

def fallsShort (l r : Word) : Bool := l.toFloat + tolerance < r.toFloat

end Word
end StackMachine
