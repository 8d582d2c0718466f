import StackMachine.Proofs.Shell.Saving
import StackMachine.Proofs.Text.Strict

/-!
# StackMachine.Proofs.Shell.Assembling

Assembling a file from the command line.

* `Shell.compiled`: the code of what was read from a file, `Shell.compile_eq`.
* `run_say`: what is printed before a command goes on, or breaks off.
* `Assembled`: what assembling can come to, and it comes to nothing else (`assembled_perform`).
* `AllOrNothing`: the destination holds all of the code, or is what it was and nothing is new but a
  temporary file that could not be removed.
* `Untroubled`: where nothing goes wrong, assembling does what it does in a world without troubles
  (`untroubled_perform`).
* `assembled_iff`: when assembling succeeds.
* `assemble_all_or_nothing`: assembling is all or nothing at its destination.
* `assemble_leaves_traces`: where more than nothing is left.
-/

namespace StackMachine

open Shell (temporary)

namespace Shell

def compiled : Except FileError (List UInt8) → Except Failure Code
  | .error e => .error (.file e)
  | .ok bytes =>
    match Utf8.strict? bytes with
    | none => .error .notText
    | some cs => (assemble (String.ofList cs)).mapError .assembly

theorem compiled_eq_ok_iff {r : Except FileError (List UInt8)} {code : Code} :
    compiled r = .ok code ↔ ∃ text, r = .ok (Utf8.encode text) ∧ assemble text = .ok code := by
  constructor
  · intro h
    cases r with
    | error e => cases h
    | ok bytes =>
      rw [compiled] at h
      cases hbytes : Utf8.strict? bytes with
      | none =>
        rw [hbytes] at h
        cases h
      | some cs =>
        simp only [hbytes] at h
        cases hcode : assemble (String.ofList cs) with
        | error e =>
          rw [hcode] at h
          cases h
        | ok c =>
          rw [hcode] at h
          cases h
          exact ⟨String.ofList cs, by rw [Utf8.strict?_eq_some_iff.mp hbytes], hcode⟩
  · rintro ⟨text, rfl, hcode⟩
    simp only [compiled, Utf8.strict?_encode, String.ofList_toList, hcode]
    rfl

section Host

variable {m : Type → Type} [Monad m] [LawfulMonad m] [Host m]
  (hlog : ∀ e : Event, (Host.log e : m Unit) = pure ())

include hlog

theorem forM_log (events : List Event) : (events.forM Host.log : m Unit) = pure () := by
  induction events with
  | nil => rfl
  | cons e es ih =>
    have hcons : ((e :: es).forM Host.log : m Unit) =
        Host.log e >>= fun _ => es.forM Host.log := rfl
    rw [hcons, hlog, pure_bind, ih]

theorem compile_eq (path : String) :
    (compile path : m (Except Failure Code)) = compiled <$> Host.read path := by
  unfold compile
  rw [map_eq_pure_bind]
  refine bind_congr fun r => ?_
  cases r with
  | error e => rfl
  | ok bytes =>
    simp only [compiled, assemble]
    cases Utf8.strict? bytes with
    | none => rfl
    | some cs =>
      simp only [forM_log hlog, pure_bind]
      cases (assembleLogged (String.ofList cs)).2 <;> rfl

end Host

end Shell

namespace Trouble

variable {t : Trouble} {w : World}

theorem run_compile (path : String) :
    ((Shell.compile path : TroubledM _).run t).run w =
      some (Shell.compiled (t.reads w path), w) := by
  rw [Shell.compile_eq fun _ => rfl]
  rfl

theorem look_of_reads {path : String} {bytes : List UInt8} (h : t.reads w path = .ok bytes) :
    w.directory.look path = some (.file bytes) := by
  unfold reads at h
  split at h
  · cases h
  · exact Directory.read_eq_ok_iff.mp h

end Trouble

section Print

variable (t : Trouble) (w : World) (label text : String) (go : TroubledM Exit)

theorem run_say : ((Shell.say label text go : TroubledM Exit).run t).run w =
    if (w.print (Shell.line label text)).1 then (go.run t).run (w.print (Shell.line label text)).2
    else some (.unprinted, (w.print (Shell.line label text)).2) := by
  rw [Shell.say, Shell.print, Trouble.run_bind, Trouble.run_print, Option.bind_some]
  cases (w.print (Shell.line label text)).1 <;> rfl

/-- A command goes on with the same files and the same room for what it prints, or there was no
room. -/
theorem run_say_cases : ∃ u : World, u.directory = w.directory ∧
    u.processor.output.limit = w.processor.output.limit ∧
    (((Shell.say label text go : TroubledM Exit).run t).run w = (go.run t).run u ∨
      w.processor.output.limit ≠ none ∧
        ((Shell.say label text go : TroubledM Exit).run t).run w = some (.unprinted, u)) := by
  refine ⟨(w.print (Shell.line label text)).2, rfl, rfl, ?_⟩
  rw [run_say]
  cases hlimit : w.processor.output.limit with
  | none =>
    left
    rw [if_pos]
    rw [World.print, Output.write_unlimited hlimit]
    rfl
  | some room =>
    cases hprint : (w.print (Shell.line label text)).1 with
    | true => exact .inl (if_pos rfl)
    | false => exact .inr ⟨by simp, if_neg (by simp)⟩

end Print

def Shell.target (source : String) (dest? : Option String) : String :=
  dest?.getD (Path.withExtension source "bin")

def Exit.ofSaved : Except Failure Unit → Exit
  | .error f => .ofFailure f
  | .ok () => .success

/-- What assembling a file can come to, and the directory that it leaves. -/
inductive Assembled (t : Trouble) (w : World) (source dest : String) : Exit → Directory → Prop where
  | refused {f : Failure} : Shell.compiled (t.reads w source) = .error f →
      Assembled t w source dest (.ofFailure f) w.directory
  | saved {code : Code} {u : World} {r : Except Failure Unit} {e : Directory} :
      Shell.compiled (t.reads w source) = .ok code → u.directory = w.directory →
      ((Shell.save dest code : TroubledM _).run t).run u = some (r, u.withDirectory e) →
      Saves t w.directory dest code.toList r e → Assembled t w source dest (.ofSaved r) e
  /-- The first line could not be printed. -/
  | unprinted : w.processor.output.limit ≠ none → Assembled t w source dest .unprinted w.directory
  /-- The code was saved, but that could not be told. -/
  | unreported {code : Code} {e : Directory} : w.processor.output.limit ≠ none →
      Shell.compiled (t.reads w source) = .ok code → Saves t w.directory dest code.toList (.ok ()) e →
      Assembled t w source dest .unprinted e

section Perform

variable (t : Trouble) (w : World) (source dest : String)

theorem run_report (code : Code) : ∃ exit v,
    ((Shell.say "Finished" ("emit binary (" ++ code.size.repr ++ " bytes)")
      (Shell.sayTarget "Saved" dest (pure .success)) : TroubledM Exit).run t).run w =
        some (exit, v) ∧ v.directory = w.directory ∧
      (exit = .success ∨ exit = .unprinted ∧ w.processor.output.limit ≠ none) := by
  obtain ⟨u, hu, hlimit, hrun | ⟨hfull, hrun⟩⟩ := run_say_cases t w "Finished"
    ("emit binary (" ++ code.size.repr ++ " bytes)") (Shell.sayTarget "Saved" dest (pure .success))
  · obtain ⟨v, hv, -, hrun' | ⟨hfull, hrun'⟩⟩ :=
      run_say_cases t u "Saved" ("target " ++ dest) (pure .success)
    · exact ⟨.success, v, hrun.trans hrun', hv.trans hu, .inl rfl⟩
    · rw [hlimit] at hfull
      exact ⟨.unprinted, v, hrun.trans hrun', hv.trans hu, .inr ⟨rfl, hfull⟩⟩
  · exact ⟨.unprinted, u, hrun, hu, .inr ⟨rfl, hfull⟩⟩

theorem assembled_perform (dest? : Option String) :
    ∃ exit v, ((Shell.perform (.assemble source dest?) : TroubledM Exit).run t).run w =
        some (exit, v) ∧
      Assembled t w source (Shell.target source dest?) exit v.directory := by
  unfold Shell.perform
  obtain ⟨u, hu, hlimit, hrun | ⟨hfull, hrun⟩⟩ :=
    run_say_cases t w "Assembling" ("target " ++ source)
      (Shell.compile source >>= fun code =>
        Shell.withCode code (Shell.saveAndReport (Shell.target source dest?)))
  · have hreads : t.reads u source = t.reads w source := by
      simp only [Trouble.reads, hu]
    rw [Trouble.run_bind, Trouble.run_compile, Option.bind_some, hreads] at hrun
    cases hcode : Shell.compiled (t.reads w source) with
    | error f =>
      rw [hcode] at hrun
      refine ⟨.ofFailure f, u, hrun, ?_⟩
      rw [hu]
      exact .refused hcode
    | ok code =>
      obtain ⟨r, e, hsave, hsaves⟩ := saves_save t u (Shell.target source dest?) code
      rw [hcode] at hrun
      simp only [Shell.withCode, Shell.saveAndReport, Trouble.run_bind, hsave,
        Option.bind_some] at hrun
      have hsaves' := hsaves
      rw [hu] at hsaves'
      cases r with
      | error f => exact ⟨.ofFailure f, u.withDirectory e, hrun, .saved hcode hu hsave hsaves'⟩
      | ok done =>
        obtain ⟨exit, v, hreport, hv, rfl | ⟨rfl, hfull⟩⟩ :=
          run_report t (u.withDirectory e) (Shell.target source dest?) code
        · refine ⟨.success, v, hrun.trans hreport, ?_⟩
          rw [hv]
          exact .saved hcode hu hsave hsaves'
        · refine ⟨.unprinted, v, hrun.trans hreport, ?_⟩
          rw [hv]
          exact .unreported (by rwa [← hlimit]) hcode hsaves'
  · refine ⟨.unprinted, u, hrun, ?_⟩
    rw [hu]
    exact .unprinted hfull

end Perform

/-- The destination holds the whole code of the source, and has no temporary file. -/
def Directory.HoldsCode (d : Directory) (source dest : String) (e : Directory) : Prop :=
  ∃ text code, d.look source = some (.file (Utf8.encode text)) ∧ assemble text = .ok code ∧
    e.look dest = some (.file code.toList) ∧ e.look (temporary dest) = none

/-- The destination is what it was, and nothing is new. Only where files cannot be removed a beginning
of the code may be left in the temporary file. -/
def Directory.KeepsOut (d : Directory) (t : Trouble) (source dest : String) (e : Directory) : Prop :=
  e.look dest = d.look dest ∧ ∀ path, d.look path = none → e.look path = none ∨
    t.remove ≠ none ∧ d.resolve path = d.resolve (temporary dest) ∧
      ∃ text code part, d.look source = some (.file (Utf8.encode text)) ∧
        assemble text = .ok code ∧ part <+: code.toList ∧ e.look path = some (.file part)

/-- Either the destination holds the whole code, or it is what it was. -/
structure AllOrNothing (t : Trouble) (d : Directory) (source dest : String) (exit : Exit)
    (e : Directory) : Prop where
  /-- A success leaves all of it. -/
  all : exit.code = 0 → d.HoldsCode source dest e
  /-- A failure leaves nothing, -/
  nothing : exit.code ≠ 0 → exit ≠ .unprinted → d.KeepsOut t source dest e
  /-- unless all that failed is to tell of the success. -/
  unprinted : exit = .unprinted → d.HoldsCode source dest e ∨ d.KeepsOut t source dest e
  other : ∀ path, d.resolve path ≠ d.resolve dest → d.resolve path ≠ d.resolve (temporary dest) →
    e.look path = d.look path

namespace Assembled

variable {t : Trouble} {w : World} {source dest : String} {exit : Exit} {e : Directory}

theorem holdsCode {code : Code} (hcode : Shell.compiled (t.reads w source) = .ok code)
    (h : Saves t w.directory dest code.toList (.ok ()) e) :
    w.directory.HoldsCode source dest e := by
  obtain ⟨text, hread, hassemble⟩ := Shell.compiled_eq_ok_iff.mp hcode
  exact ⟨text, code, Trouble.look_of_reads hread, hassemble, h.look_saved⟩

theorem keepsOut {code : Code} (hcode : Shell.compiled (t.reads w source) = .ok code) {f : Failure}
    (h : Saves t w.directory dest code.toList (.error f) e) :
    w.directory.KeepsOut t source dest e := by
  obtain ⟨text, hread, hassemble⟩ := Shell.compiled_eq_ok_iff.mp hcode
  refine ⟨h.look_dest, fun path hpath => ?_⟩
  rcases h.look_new hpath with hnone | ⟨hstuck, hplace, part, hpart, hleft⟩
  · exact .inl hnone
  · exact .inr ⟨hstuck, hplace, text, code, part, Trouble.look_of_reads hread, hassemble, hpart,
      hleft⟩

theorem keepsOut_refl (d : Directory) : d.KeepsOut t source dest d := ⟨rfl, fun _ => .inl⟩

theorem allOrNothing (h : Assembled t w source dest exit e) :
    AllOrNothing t w.directory source dest exit e := by
  cases h with
  | refused _ =>
    exact ⟨by simp [Exit.ofFailure], fun _ _ => keepsOut_refl _, by simp [Exit.ofFailure,
      Exit.unprinted], fun _ _ _ => rfl⟩
  | @saved code u r _ hcode _ _ hsaves =>
    cases r with
    | error f =>
      exact ⟨by simp [Exit.ofSaved, Exit.ofFailure], fun _ _ => keepsOut hcode hsaves,
        fun _ => .inr (keepsOut hcode hsaves), fun _ => hsaves.look_other⟩
    | ok done =>
      exact ⟨fun _ => holdsCode hcode hsaves, by simp [Exit.ofSaved, Exit.success],
        fun _ => .inl (holdsCode hcode hsaves), fun _ => hsaves.look_other⟩
  | unprinted _ =>
    exact ⟨by simp [Exit.unprinted], fun _ _ => keepsOut_refl _,
      fun _ => .inr (keepsOut_refl _), fun _ _ _ => rfl⟩
  | unreported _ hcode hsaves =>
    exact ⟨by simp [Exit.unprinted], fun _ hne => absurd rfl hne,
      fun _ => .inl (holdsCode hcode hsaves), fun _ => hsaves.look_other⟩

theorem printed (h : Assembled t w source dest exit e) (hroom : w.processor.output.limit = none) :
    exit ≠ .unprinted := by
  cases h with
  | refused _ => simp [Exit.ofFailure, Exit.unprinted]
  | @saved _ _ r =>
    cases r with
    | error f => simp [Exit.ofSaved, Exit.ofFailure, Exit.unprinted]
    | ok done => simp [Exit.ofSaved, Exit.success, Exit.unprinted]
  | unprinted hfull => exact absurd hroom hfull
  | unreported hfull => exact absurd hroom hfull

end Assembled

/-- A change does in a world what it does in one with troubles where nothing goes wrong. -/
def Untroubled {α : Type} (x : TroubledM α) (y : WorldM α) : Prop := x.run .none = y

section Untroubled

variable {α β : Type}

theorem Untroubled.bind {x : TroubledM α} {y : WorldM α} {f : α → TroubledM β} {g : α → WorldM β}
    (h : Untroubled x y) (hf : ∀ a, Untroubled (f a) (g a)) : Untroubled (x >>= f) (y >>= g) := by
  unfold Untroubled at *
  rw [ReaderT.run_bind, h]
  exact bind_congr hf

theorem untroubled_compile (path : String) :
    Untroubled (Shell.compile path) (Shell.compile path) := by
  rw [Untroubled, Shell.compile_eq fun _ => rfl, Shell.compile_eq fun _ => rfl]
  rfl

theorem untroubled_save (dest : String) (code : Code) :
    Untroubled (Shell.save dest code) (Shell.save dest code) := by
  unfold Shell.save
  refine Untroubled.bind rfl fun made => ?_
  cases made with
  | error f => rfl
  | ok u =>
    refine Untroubled.bind rfl fun moved => ?_
    cases moved <;> rfl

theorem untroubled_say {x : TroubledM Exit} {y : WorldM Exit} (h : Untroubled x y)
    (label text : String) : Untroubled (Shell.say label text x) (Shell.say label text y) := by
  unfold Shell.say Shell.print
  refine Untroubled.bind rfl fun printed => ?_
  cases printed with
  | true => exact h
  | false => rfl

theorem untroubled_perform (source : String) (dest? : Option String) :
    Untroubled (Shell.perform (.assemble source dest?))
      (Shell.perform (.assemble source dest?)) := by
  unfold Shell.perform Shell.sayTarget
  refine untroubled_say ((untroubled_compile source).bind fun code => ?_) _ _
  cases code with
  | error f => rfl
  | ok code =>
    refine (untroubled_save _ code).bind fun r => ?_
    cases r with
    | error f => rfl
    | ok done => exact untroubled_say (untroubled_say rfl _ _) _ _

end Untroubled

section Assemble

variable {w : World} {args : List String} {source : String} {dest? : Option String}

theorem run_eq_untroubled (h : Request.ofArguments args = .command (.assemble source dest?)) :
    w.run args =
      ((Shell.perform (.assemble source dest?) : TroubledM Exit).run .none).run w := by
  rw [untroubled_perform source dest?, World.run, Shell.answer, h]

/-- What assembling needs in order to succeed, where nothing goes wrong. -/
theorem assembled_iff {exit : Exit} {e : Directory}
    (h : Assembled .none w source (Shell.target source dest?) exit e)
    (hroom : w.processor.output.limit = none) :
    exit.code = 0 ↔
      (∃ text code, w.directory.look source = some (.file (Utf8.encode text)) ∧
        assemble text = .ok code) ∧
        ∃ p q, w.directory.Accepts (Shell.target source dest?) p q := by
  cases h with
  | @refused f hcode =>
    refine iff_of_false (by simp [Exit.ofFailure]) ?_
    rintro ⟨⟨text, code, hlook, hassemble⟩, -⟩
    have hread : Trouble.none.reads w source = .ok (Utf8.encode text) :=
      Directory.read_eq_ok_iff.mpr hlook
    rw [Shell.compiled_eq_ok_iff.mpr ⟨text, hread, hassemble⟩] at hcode
    cases hcode
  | @saved code u r _ hcode hu hsave hsaves =>
    obtain ⟨text, hread, hassemble⟩ := Shell.compiled_eq_ok_iff.mp hcode
    have haccepts := saves_ok_iff u (Shell.target source dest?) code
    rw [hu, hsave] at haccepts
    rw [← haccepts]
    cases r with
    | error f =>
      refine iff_of_false (by simp [Exit.ofSaved, Exit.ofFailure]) ?_
      rintro ⟨-, v, hv⟩
      cases hv
    | ok done =>
      exact iff_of_true rfl
        ⟨⟨text, code, Directory.read_eq_ok_iff.mp hread, hassemble⟩, _, rfl⟩
  | unprinted hfull => exact absurd hroom hfull
  | unreported hfull => exact absurd hroom hfull

/-- Assembling a file is all or nothing at its destination, and where the output takes what is
printed, whether it succeeds is a matter of the source and of what is in the way. It is all or nothing
even if reading, making, writing, moving or removing a file fails without any reason in the
directory; only a removal that fails leaves something. -/
theorem assemble_all_or_nothing (w : World)
    (h : Request.ofArguments args = .command (.assemble source dest?)) :
    (∃ exit v, w.run args = some (exit, v) ∧
      AllOrNothing .none w.directory source (Shell.target source dest?) exit v.directory ∧
      (w.processor.output.limit = none → exit ≠ .unprinted ∧ (exit.code = 0 ↔
        (∃ text code, w.directory.look source = some (.file (Utf8.encode text)) ∧
          assemble text = .ok code) ∧
          ∃ p q, w.directory.Accepts (Shell.target source dest?) p q))) ∧
      ∀ t : Trouble, ∃ exit v, ((Shell.answer args : TroubledM Exit).run t).run w = some (exit, v) ∧
        AllOrNothing t w.directory source (Shell.target source dest?) exit
          v.directory ∧
        (w.processor.output.limit = none → exit ≠ .unprinted) := by
  constructor
  · obtain ⟨exit, v, hrun, hassembled⟩ := assembled_perform .none w source dest?
    rw [← run_eq_untroubled h] at hrun
    exact ⟨exit, v, hrun, hassembled.allOrNothing,
      fun hroom => ⟨hassembled.printed hroom, assembled_iff hassembled hroom⟩⟩
  · intro t
    have hanswer : (Shell.answer args : TroubledM Exit) =
        Shell.perform (.assemble source dest?) := by
      rw [Shell.answer, h]
    obtain ⟨exit, v, hrun, hassembled⟩ := assembled_perform t w source dest?
    rw [hanswer]
    exact ⟨exit, v, hrun, hassembled.allOrNothing, hassembled.printed⟩

end Assemble

/-- A file whose code is saved beside it, and cannot be saved where a folder is, even if what was
written cannot be removed there. -/
theorem assemble_all_or_nothing_occupied :
    let w := World.start ⟨[(["a.asm"], .file (Utf8.encode "halt")), (["b"], .folder)]⟩ [] 0
    (∃ exit v, w.run ["assemble", "a.asm"] = some (exit, v) ∧ exit.code = 0 ∧
        v.directory.look "a.bin" = some (.file [11]) ∧ v.directory.look "a.bin.tmp" = none) ∧
      (∃ exit v, w.run ["assemble", "a.asm", "b"] = some (exit, v) ∧ exit.code ≠ 0 ∧
        v.directory.look "b" = some .folder ∧ v.directory.look "b.tmp" = none) ∧
      ∃ exit v, ((Shell.answer ["assemble", "a.asm", "b"] : TroubledM Exit).run
          { Trouble.none with remove := some .busy }).run w = some (exit, v) ∧
        (exit.code = 0 → v.directory.look "b" = some (.file [11])) ∧
        (exit.code ≠ 0 → v.directory.look "b" = some .folder) := by
  intro w
  have hbeside : Request.ofArguments ["assemble", "a.asm"] = .command (.assemble "a.asm" none) := by
    decide +kernel
  have hoccupied : Request.ofArguments ["assemble", "a.asm", "b"] =
      .command (.assemble "a.asm" (some "b")) := by
    decide +kernel
  have hsource : w.directory.look "a.asm" = some (.file (Utf8.encode "halt")) := by decide +kernel
  have hcode : assemble "halt" = .ok #[11] := by decide +kernel
  have hholds : ∀ dest e, w.directory.HoldsCode "a.asm" dest e →
      e.look dest = some (.file [11]) ∧ e.look (temporary dest) = none := by
    rintro dest e ⟨text, code, hlook, hassemble, hdest, htemporary⟩
    rw [hsource, Option.some.injEq, Node.file.injEq] at hlook
    rw [← Utf8.encode_injective hlook, hcode, Except.ok.injEq] at hassemble
    rw [← hassemble] at hdest
    exact ⟨hdest, htemporary⟩
  obtain ⟨⟨exit, v, hrun, hwhole, hprinted⟩, -⟩ := assemble_all_or_nothing w hbeside
  obtain ⟨⟨exit', v', hrun', hwhole', hprinted'⟩, htroubled⟩ := assemble_all_or_nothing w hoccupied
  obtain ⟨-, hsuccess⟩ := hprinted rfl
  obtain ⟨hprint, hsuccess'⟩ := hprinted' rfl
  refine ⟨?_, ?_, ?_⟩
  · have hzero : exit.code = 0 := by
      exact hsuccess.mpr ⟨⟨"halt", _, hsource, hcode⟩, ["a.bin.tmp"], ["a.bin"], by decide +kernel⟩
    exact ⟨exit, v, hrun, hzero, hholds _ _ (hwhole.all hzero)⟩
  · have hfails : exit'.code ≠ 0 := by
      intro h
      obtain ⟨-, p, q, haccepts⟩ := hsuccess'.mp h
      have hq : w.directory.resolve "b" = .ok ["b"] := by decide +kernel
      have hfolder : w.directory.get? ["b"] = some .folder := by decide +kernel
      have htarget := haccepts.target
      rw [Shell.target, Option.getD_some, hq, Except.ok.injEq] at htarget
      subst htarget
      exact haccepts.target_vacant hfolder
    obtain ⟨hdest, hnew⟩ := hwhole'.nothing hfails hprint
    rcases hnew "b.tmp" (by decide +kernel) with hnone | ⟨hstuck, -⟩
    · exact ⟨exit', v', hrun', hfails, hdest, hnone⟩
    · exact absurd rfl hstuck
  · obtain ⟨stuck, u, hrun, hwhole, hprinted⟩ := htroubled { Trouble.none with remove := some .busy }
    exact ⟨stuck, u, hrun, fun hzero => (hholds _ _ (hwhole.all hzero)).1,
      fun hfails => (hwhole.nothing hfails (hprinted rfl)).1⟩

/-- The code of a temporary file that can be neither moved nor removed stays. A command whose second
line cannot be printed fails and has saved the code. And a folder named with a slash loses what has
the name of the temporary file in it. -/
theorem assemble_leaves_traces :
    let text := Utf8.encode "halt"
    let w := World.start ⟨[(["a.asm"], .file text), ([".tmp"], .file text)]⟩ [] 0
    let stuck : Trouble := { Trouble.none with rename := some .busy, remove := some .busy }
    let full : World :=
      { w with
        processor.output.limit := some (26, ⟨.storageFull, .system 28 "No space left on device"⟩) }
    (((Shell.answer ["assemble", "a.asm"] : TroubledM Exit).run stuck).run w).map (fun r =>
        (r.1.code, w.directory.look "a.bin.tmp", r.2.directory.look "a.bin.tmp")) =
          some (1, none, some (.file [11])) ∧
      (full.run ["assemble", "a.asm"]).map (fun r =>
        (r.1.code, full.directory.look "a.bin", r.2.directory.look "a.bin")) =
          some (101, none, some (.file [11])) ∧
      (w.run ["assemble", "a.asm", "./"]).map (fun r =>
        (r.1.code, w.directory.look "./.tmp", r.2.directory.look "./.tmp")) =
          some (1, some (.file text), none) := by
  intro text w stuck full
  exact ⟨by decide +kernel, by decide +kernel, by decide +kernel⟩

end StackMachine
