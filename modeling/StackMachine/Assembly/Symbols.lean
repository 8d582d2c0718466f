/-!
# StackMachine.Assembly.Symbols

Label names and the addresses they stand for, in the order of their definition.

* `Symbols.insert`: defines a name, unless it is taken.
* `Symbols.get?`: the address of a name.
-/

namespace StackMachine

structure Symbols where
  entries : List (String × Nat)
deriving DecidableEq

namespace Symbols

def empty : Symbols := ⟨[]⟩

def get? (t : Symbols) (name : String) : Option Nat := t.entries.lookup name

/-- Defines a name. A name that is taken keeps its address, which is given back. -/
def insert (t : Symbols) (name : String) (address : Nat) : Except Nat Symbols :=
  match t.get? name with
  | some previous => .error previous
  | none => .ok ⟨t.entries ++ [(name, address)]⟩

def size (t : Symbols) : Nat := t.entries.length

def isEmpty (t : Symbols) : Bool := t.entries.isEmpty

theorem insert_eq_error_iff {t : Symbols} {name : String} {address previous : Nat} :
    t.insert name address = .error previous ↔ t.get? name = some previous := by
  unfold insert
  split <;> simp_all

theorem get?_insert {t u : Symbols} {name : String} {address : Nat}
    (h : t.insert name address = .ok u) (other : String) :
    u.get? other = if other = name then some address else t.get? other := by
  unfold insert at h
  split at h
  · simp at h
  · rename_i hn
    simp only [Except.ok.injEq] at h
    subst h
    simp only [get?, List.lookup_append] at hn ⊢
    by_cases ho : other = name
    · subst ho
      simp [hn]
    · have hb : (other == name) = false := by simpa using ho
      simp [List.lookup_cons, hb, ho]

end Symbols
end StackMachine
