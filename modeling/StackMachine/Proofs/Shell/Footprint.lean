import StackMachine.Proofs.Shell.Assembling

/-!
# StackMachine.Proofs.Shell.Footprint

What assembling a file leaves as it was.

* `Directory.Spares`: all that was there is there still, except at the places of some paths.
* `Directory.Compiles`: a source has code to be saved.
* `Footprint`: assembling spares all but its destination and a file in the way of its temporary
  file.
* `footprint_perform`: so it does, whatever goes wrong.
* `temporary_not_spared`: a file in the way of the temporary file is lost, even the source itself.
* `assemble_spares`: all this for a command line.
-/

namespace StackMachine

open Shell (temporary)

/-- Every path that leads to none of the places of the given paths names what it named before. -/
def Directory.Spares (d e : Directory) (touched : List String) : Prop :=
  ∀ path node, (∀ t ∈ touched, d.resolve path ≠ d.resolve t) → d.look path = some node →
    e.look path = some node

/-- The source is a text that can be assembled. -/
def Directory.Compiles (d : Directory) (source : String) : Prop :=
  ∃ text code, d.look source = some (.file (Utf8.encode text)) ∧ assemble text = .ok code

structure Footprint (d : Directory) (source dest : String) (e : Directory) : Prop where
  /-- All but the destination and its temporary file is spared. -/
  other : d.Spares e [dest, temporary dest]
  /-- The place of the temporary file is spared too, unless a file is there. -/
  vacant : (∀ bytes, d.look (temporary dest) ≠ some (.file bytes)) → d.Spares e [dest]
  /-- Without code to save, everything is spared. -/
  refused : ¬ d.Compiles source → d.Spares e []

namespace Directory

variable {d e : Directory} {path other : String}

theorem spares_refl (d : Directory) (touched : List String) : d.Spares d touched :=
  fun _ _ _ hlook => hlook

theorem look_eq_of_resolve (h : d.resolve path = d.resolve other) : d.look path = d.look other := by
  simp only [look, h]

theorem SameFolders.look_folder (h : SameFolders d e) (hpath : d.look path = some .folder) :
    e.look path = some .folder := by
  cases hp : d.resolve path with
  | error f =>
    simp only [look, hp] at hpath
    cases hpath
  | ok p =>
    rw [look_of_resolve hp, h p] at hpath
    rw [look_of_resolve (h.resolve.mp hp), hpath]

end Directory

namespace Saves

variable {t : Trouble} {d e : Directory} {dest : String} {bytes : List UInt8}
  {r : Except Failure Unit}

theorem spares (h : Saves t d dest bytes r e) : d.Spares e [dest, temporary dest] := by
  intro path node hne hlook
  rw [h.look_other (hne dest (by simp)) (hne (temporary dest) (by simp)), hlook]

/-- Where no file is in its way, the temporary file takes nothing: a folder stays. -/
theorem spares_of_vacant (h : Saves t d dest bytes r e)
    (hvacant : ∀ content, d.look (temporary dest) ≠ some (.file content)) : d.Spares e [dest] := by
  intro path node hne hlook
  by_cases hpath : d.resolve path = d.resolve (temporary dest)
  · cases node with
    | file content =>
      rw [Directory.look_eq_of_resolve hpath] at hlook
      exact absurd hlook (hvacant content)
    | folder => exact h.sameFolders.look_folder hlook
  · refine h.spares path node ?_ hlook
    intro t ht
    rcases List.mem_cons.mp ht with rfl | ht
    · exact hne _ (by simp)
    · rw [List.mem_singleton.mp ht]
      exact hpath

end Saves

theorem footprint_refl (d : Directory) (source dest : String) : Footprint d source dest d :=
  ⟨Directory.spares_refl _ _, fun _ => Directory.spares_refl _ _,
    fun _ => Directory.spares_refl _ _⟩

section Assembled

variable {t : Trouble} {w : World} {source dest : String} {exit : Exit} {e : Directory}

theorem Saves.footprint {code : Code} {r : Except Failure Unit}
    (hcode : Shell.compiled (t.reads w source) = .ok code)
    (h : Saves t w.directory dest code.toList r e) : Footprint w.directory source dest e := by
  obtain ⟨text, hread, hassemble⟩ := Shell.compiled_eq_ok_iff.mp hcode
  have hcompiles : w.directory.Compiles source :=
    ⟨text, code, Trouble.look_of_reads hread, hassemble⟩
  exact ⟨h.spares, h.spares_of_vacant, fun hrefused => absurd hcompiles hrefused⟩

theorem Assembled.footprint (h : Assembled t w source dest exit e) :
    Footprint w.directory source dest e := by
  cases h with
  | refused _ => exact footprint_refl _ _ _
  | saved hcode _ _ hsaves => exact hsaves.footprint hcode
  | unprinted _ => exact footprint_refl _ _ _
  | unreported _ hcode hsaves => exact hsaves.footprint hcode

end Assembled

theorem footprint_perform (t : Trouble) (w : World) (source : String) (dest? : Option String) :
    ∃ exit v, ((Shell.perform (.assemble source dest?) : TroubledM Exit).run t).run w =
        some (exit, v) ∧
      Footprint w.directory source (Shell.target source dest?) v.directory := by
  obtain ⟨exit, v, hrun, hassembled⟩ := assembled_perform t w source dest?
  exact ⟨exit, v, hrun, hassembled.footprint⟩

theorem not_spares_of_run {w : World} {args : List String} {path dest : String} {node : Node}
    {code : Nat} (hlook : w.directory.look path = some node)
    (hne : w.directory.resolve path ≠ w.directory.resolve dest)
    (hrun : (w.run args).map (fun r => (r.1.code, r.2.directory.look path)) = some (code, none)) :
    ∃ exit v, w.run args = some (exit, v) ∧ exit.code = code ∧
      ¬ w.directory.Spares v.directory [dest] := by
  obtain ⟨⟨exit, v⟩, hended, hafter⟩ := Option.map_eq_some_iff.mp hrun
  rw [Prod.mk.injEq] at hafter
  refine ⟨exit, v, hended, hafter.1, ?_⟩
  intro hspares
  have hstays := hspares path node (fun t ht => by rwa [List.mem_singleton.mp ht]) hlook
  rw [hafter.2] at hstays
  cases hstays

/-- A file that has the name of the temporary file is lost: where saving succeeds, where it fails,
and where that file is the source. -/
theorem temporary_not_spared :
    let text := Utf8.encode "halt"
    let w := World.start ⟨[(["a.asm"], .file text), (["a.bin.tmp"], .file text), (["b"], .folder),
      (["b.tmp"], .file text)]⟩ [] 0
    (∃ exit v, w.run ["assemble", "a.asm"] = some (exit, v) ∧ exit.code = 0 ∧
        ¬ w.directory.Spares v.directory ["a.bin"]) ∧
      (∃ exit v, w.run ["assemble", "a.asm", "b"] = some (exit, v) ∧ exit.code = 1 ∧
        ¬ w.directory.Spares v.directory ["b"]) ∧
      ∃ exit v, w.run ["assemble", "a.bin.tmp", "a.bin"] = some (exit, v) ∧ exit.code = 0 ∧
        ¬ w.directory.Spares v.directory ["a.bin"] := by
  intro text w
  have hfile : w.directory.look "a.bin.tmp" = some (.file text) := by decide +kernel
  have hother : w.directory.look "b.tmp" = some (.file text) := by decide +kernel
  have hplace : w.directory.resolve "a.bin.tmp" ≠ w.directory.resolve "a.bin" := by decide +kernel
  refine ⟨?_, ?_, ?_⟩
  · exact not_spares_of_run hfile hplace (by decide +kernel)
  · exact not_spares_of_run hother (by decide +kernel) (by decide +kernel)
  · exact not_spares_of_run hfile hplace (by decide +kernel)

/-- Assembling a file changes nothing but its destination and a file that stands where its temporary
file is made, and that one only if there is code to save. It keeps to this whether it succeeds or
fails, even if reading, making, writing, moving or removing a file fails without any reason in the
directory. -/
theorem assemble_spares {args : List String} {source : String} {dest? : Option String} (w : World)
    (h : Request.ofArguments args = .command (.assemble source dest?)) :
    (∃ exit v, w.run args = some (exit, v) ∧
      Footprint w.directory source (Shell.target source dest?) v.directory) ∧
      ∀ t : Trouble, ∃ exit v, ((Shell.answer args : TroubledM Exit).run t).run w = some (exit, v) ∧
        Footprint w.directory source (Shell.target source dest?) v.directory := by
  constructor
  · rw [run_eq_untroubled h]
    exact footprint_perform .none w source dest?
  · intro t
    rw [Shell.answer, h]
    exact footprint_perform t w source dest?

/-- The source and a file with a name of the same kind stay, and so does a file where a temporary
one would be made if there were code. -/
theorem assemble_spares_source :
    let text := Utf8.encode "halt"
    let w := World.start ⟨[(["a.asm"], .file text), (["b.asm"], .file (Utf8.encode "jmp b")),
      (["b.bin.tmp"], .file text)]⟩ [] 0
    (∃ exit v, w.run ["assemble", "a.asm"] = some (exit, v) ∧
        v.directory.look "a.asm" = some (.file text) ∧
        v.directory.look "b.bin.tmp" = some (.file text)) ∧
      ∃ exit v, w.run ["assemble", "b.asm"] = some (exit, v) ∧
        v.directory.look "b.bin.tmp" = some (.file text) := by
  intro text w
  have hassembles :
      Request.ofArguments ["assemble", "a.asm"] = .command (.assemble "a.asm" none) := by
    decide +kernel
  have hrefuses :
      Request.ofArguments ["assemble", "b.asm"] = .command (.assemble "b.asm" none) := by
    decide +kernel
  obtain ⟨⟨exit, v, hrun, hfootprint⟩, -⟩ := assemble_spares w hassembles
  obtain ⟨⟨exit', v', hrun', hfootprint'⟩, -⟩ := assemble_spares w hrefuses
  refine ⟨⟨exit, v, hrun, ?_, ?_⟩, exit', v', hrun', ?_⟩
  · exact hfootprint.other "a.asm" _ (by decide +kernel) (by decide +kernel)
  · exact hfootprint.other "b.bin.tmp" _ (by decide +kernel) (by decide +kernel)
  · have hrefused : ¬ w.directory.Compiles "b.asm" := by
      rintro ⟨source, code, hlook, hcode⟩
      have hsource : w.directory.look "b.asm" = some (.file (Utf8.encode "jmp b")) := by
        decide +kernel
      rw [hsource, Option.some.injEq, Node.file.injEq] at hlook
      have hfails : (assemble "jmp b").isOk = false := by decide +kernel
      rw [Utf8.encode_injective hlook, hcode] at hfails
      cases hfails
    exact hfootprint'.refused hrefused "b.bin.tmp" _ (by decide +kernel) (by decide +kernel)

end StackMachine
