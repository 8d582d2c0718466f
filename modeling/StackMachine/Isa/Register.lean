/-!
# StackMachine.Isa.Register

The four general registers.

* `Reg.code`, `Reg.ofCode?`: the operand byte of a register.
* `Reg.name`, `Reg.ofName?`: its name; names are read in any case.
-/

namespace StackMachine

inductive Reg where
  | ax
  | bx
  | cx
  | dx
deriving DecidableEq, Inhabited

namespace Reg

def all : List Reg := [ax, bx, cx, dx]

def code : Reg → UInt8
  | ax => 0
  | bx => 1
  | cx => 2
  | dx => 3

def ofCode? (b : UInt8) : Option Reg := all.find? fun r => r.code == b

def name : Reg → List Char
  | ax => ['a', 'x']
  | bx => ['b', 'x']
  | cx => ['c', 'x']
  | dx => ['d', 'x']

/-- The register with a given name; the case of ASCII letters does not matter. -/
def ofName? (cs : List Char) : Option Reg := all.find? fun r => r.name == cs.map Char.toLower

theorem mem_all (r : Reg) : r ∈ all := by cases r <;> decide

theorem ofCode?_code (r : Reg) : ofCode? r.code = some r := by cases r <;> rfl

theorem ofCode?_eq_some_iff {b : UInt8} {r : Reg} : ofCode? b = some r ↔ r.code = b := by
  constructor
  · intro h
    simpa using List.find?_some h
  · rintro rfl
    exact ofCode?_code r

theorem ofCode?_eq_none_iff {b : UInt8} : ofCode? b = none ↔ 3 < b.toNat := by
  constructor
  · intro h
    have h := List.find?_eq_none.mp h
    simp only [beq_iff_eq] at h
    have h₀ := fun e => h ax (mem_all _) (UInt8.toNat_inj.mp e)
    have h₁ := fun e => h bx (mem_all _) (UInt8.toNat_inj.mp e)
    have h₂ := fun e => h cx (mem_all _) (UInt8.toNat_inj.mp e)
    have h₃ := fun e => h dx (mem_all _) (UInt8.toNat_inj.mp e)
    simp only [code, UInt8.toNat_ofNat, imp_false] at h₀ h₁ h₂ h₃
    omega
  · intro h
    apply List.find?_eq_none.mpr
    intro r _ hr
    have hr := congrArg UInt8.toNat (beq_iff_eq.mp hr)
    cases r <;> simp [code] at hr <;> omega

theorem ofName?_name (r : Reg) : ofName? r.name = some r := by cases r <;> rfl

end Reg
end StackMachine
