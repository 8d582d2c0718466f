import StackMachine.Log.Level

/-!
# StackMachine.Log.Settings

The settings of the log, made once and then only read.

* `Settings.init`: makes them from the text of the environment variable.
* `Settings.level`: the limit that was chosen.
-/

namespace StackMachine

def logVariable : String := "STACKPROC_LOG"

inductive SettingsError where
  | notInitialized
  | initializedTwice
deriving DecidableEq

def SettingsError.message : SettingsError → String
  | notInitialized => "tried to access environment state before initialization"
  | initializedTwice => "tried to initialize environment state multiple times"

structure Settings where
  chosen : Option Level
deriving DecidableEq

namespace Settings

def unset : Settings := ⟨none⟩

def init (s : Settings) (setting : Option String) : Except SettingsError Settings :=
  match s.chosen with
  | none => .ok ⟨some (Level.chosen setting)⟩
  | some _ => .error .initializedTwice

def level (s : Settings) : Except SettingsError Level :=
  match s.chosen with
  | none => .error .notInitialized
  | some l => .ok l

end Settings
end StackMachine
