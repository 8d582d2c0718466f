import StackMachine.Proofs.Shell.Commands

/-!
# StackMachine.Proofs.Shell.Agreement

A source runs the same from its text and from the code that was saved of it.

* `Answer`, `World.answer?`: what can be seen of a command line from outside.
* `run_source`, `exec_code`, `run_code`: the three commands that execute a program, each with what its
  file holds.
* `answer_ended`, `answer_failed`: what they answer if there is code, and if there is none.
* `commands_agree`: they answer the same once `assemble` has saved the code.
* `named_otherwise`: files that do not have the names of a source and its code.
-/

namespace StackMachine

structure Answer where
  code : Nat
  failure : Option String
  stdout : List UInt8
deriving DecidableEq

/-- None if a run was given up. -/
def World.answer? (w : World) (args : List String) : Option Answer :=
  (w.run args).map fun x => ⟨x.1.code, x.1.failure.map Failure.message, x.2.stdout⟩

/-- The answer to a program that has ended: what it printed, and its status. -/
def Answer.ofVerdict (v : Verdict) (printed : Array UInt8) : Answer :=
  ⟨(Exit.ofVerdict v).code, none, printed.toList ++ Utf8.encode (v.status ++ "\n")⟩

/-- The answer to a command that has not come to execute anything. -/
def Answer.ofFailure (f : Failure) : Answer := ⟨1, some f.message, []⟩

theorem code_eq_zero_iff (v : Verdict) (printed : Array UInt8) :
    (Answer.ofVerdict v printed).code = 0 ↔ v.status = "success" := by
  cases v with
  | ok u => exact iff_of_true rfl rfl
  | error f =>
    refine iff_of_false Nat.one_ne_zero ?_
    cases f with
    | io e =>
      intro h
      have htext := congrArg String.toList h
      rw [Verdict.status, Fault.message, String.toList_append] at htext
      cases htext
    | _ => decide

section Answers

variable {x : String} (hx : Stem x)

theorem run_command {c : Command} {args : List String} (h : Request.ofArguments args = .command c)
    (w : World) : w.run args = (Shell.perform c : WorldM Exit).run w := by
  rw [World.run, Shell.answer, h]

theorem run_loadAndExecute (w : World) (path : String) :
    (Shell.loadAndExecute path true : WorldM Exit).run w =
      (Shell.withCode (Shell.loaded (w.directory.read path))
        (fun code => Shell.execute path code true) : WorldM Exit).run w := by
  rw [Shell.loadAndExecute, World.run_bind, World.run_load]
  rfl

include hx

theorem extension?_source : Path.extension? (x ++ ".asm") = some "asm" := by
  have h := hx.extension? "asm" (by decide) (by decide) (by decide)
  rwa [String.append_assoc] at h

theorem extension?_code : Path.extension? (x ++ ".bin") = some "bin" := by
  have h := hx.extension? "bin" (by decide) (by decide) (by decide)
  rwa [String.append_assoc] at h

theorem run_source (w : World) : w.run ["run", x ++ ".asm", "--minimal"] =
    (Shell.withCode (Shell.compiled (w.directory.read (x ++ ".asm")))
      (fun code => Shell.execute (x ++ ".asm") code true) : WorldM Exit).run w := by
  rw [run_command (Request.ofArguments_run (hx.isFile ".asm")), Shell.perform, Shell.runFile,
    extension?_source hx]
  have hasm : ¬ ("asm" = "bin") := by decide
  simp only [hasm, if_false, if_true]
  rw [Shell.compileAndExecute, World.run_bind, World.run_compile]
  rfl

theorem exec_code (w : World) : w.run ["exec", x ++ ".bin", "--minimal"] =
    (Shell.withCode (Shell.loaded (w.directory.read (x ++ ".bin")))
      (fun code => Shell.execute (x ++ ".bin") code true) : WorldM Exit).run w := by
  rw [run_command (Request.ofArguments_exec (hx.isFile ".bin")), Shell.perform, if_pos rfl,
    run_loadAndExecute]

theorem run_code (w : World) : w.run ["run", x ++ ".bin", "--minimal"] =
    (Shell.withCode (Shell.loaded (w.directory.read (x ++ ".bin")))
      (fun code => Shell.execute (x ++ ".bin") code true) : WorldM Exit).run w := by
  rw [run_command (Request.ofArguments_run (hx.isFile ".bin")), Shell.perform, Shell.runFile,
    extension?_code hx]
  simp only [if_true]
  exact run_loadAndExecute w _

end Answers

section Execute

variable {d : Directory} {code : Code} {input : Input} {n : Nat} {args : List String}
  {path : String} {r : Except Failure Code}
  (h : (World.before d input n).run args =
    (Shell.withCode r (fun code => Shell.execute path code true) : WorldM Exit).run
      (.before d input n))

include h

theorem answer_ended {o : Outcome} {s : State} {v : Verdict} (hr : r = .ok code)
    (hrun : run code n (.start input .unlimited) = (o, s)) (hends : o.verdict? = some v) :
    (World.before d input n).answer? args = some (.ofVerdict v s.store.output.written) := by
  obtain ⟨u, hexecute, hstdout⟩ := run_execute (d := d) hrun hends path
  rw [World.answer?, h, hr, Shell.withCode, hexecute, Option.map_some, hstdout, Answer.ofVerdict]
  cases v <;> rfl

theorem answer_failed {f : Failure} (hr : r = .error f) :
    (World.before d input n).answer? args = some (.ofFailure f) := by
  rw [World.answer?, h, hr]
  rfl

end Execute

theorem run_empty {n : Nat} (hn : 0 < n) (s : State) :
    run #[] n s = (.failed .invalidInstructionPointer, s) := by
  obtain ⟨n, rfl⟩ := Nat.exists_eq_succ_of_ne_zero (Nat.ne_of_gt hn)
  have hstep : step #[] s = ⟨.failed .invalidInstructionPointer, s, []⟩ := by
    simp [step, opcodeAt]
  rw [run_succ, hstep]

/-- A source and the code that was saved of it run the same. Whatever is read from the input, which may
fail, they print what the program prints and then its status, and exit with 0 if that is `success`.
Code without any byte is saved too, but it is not loaded. -/
theorem commands_agree {x : String} (hx : Stem x) {d : Directory} {text : String} {code : Code}
    (hsource : d.look (x ++ ".asm") = some (.file (Utf8.encode text)))
    (hcode : assemble text = .ok code) (input₀ : Input) (n₀ : Nat) :
    ∃ exit w,
      (World.before d input₀ n₀).run ["assemble", x ++ ".asm", x ++ ".bin"] = some (exit, w) ∧
      (exit.code = 0 ↔ ∃ p q, d.Accepts (x ++ ".bin") p q) ∧
      (exit.code = 0 → ∀ input n,
        (code ≠ #[] → ∀ o s v, run code n (.start input .unlimited) = (o, s) →
          o.verdict? = some v →
            let ended := Answer.ofVerdict v s.store.output.written
            (World.before d input n).answer? ["run", x ++ ".asm", "--minimal"] = some ended ∧
            (World.before w.directory input n).answer? ["exec", x ++ ".bin", "--minimal"] =
              some ended ∧
            (World.before w.directory input n).answer? ["run", x ++ ".bin", "--minimal"] =
              some ended ∧
            (ended.code = 0 ↔ v.status = "success")) ∧
        (code = #[] → 0 < n →
          (World.before d input n).answer? ["run", x ++ ".asm", "--minimal"] =
            some ⟨1, none, Utf8.encode "invalid instruction pointer\n"⟩ ∧
          (World.before w.directory input n).answer? ["exec", x ++ ".bin", "--minimal"] =
            some ⟨1, some "File is empty!", []⟩ ∧
          (World.before w.directory input n).answer? ["run", x ++ ".bin", "--minimal"] =
            some ⟨1, some "File is empty!", []⟩)) := by
  have hrequest := Request.ofArguments_assemble (hx.isFile ".asm") (hx.isFile ".bin")
  obtain ⟨exit, w, hassemble, hassembled⟩ :=
    assembled_perform .none (World.before d input₀ n₀) (x ++ ".asm") (some (x ++ ".bin"))
  rw [← run_eq_untroubled hrequest] at hassemble
  refine ⟨exit, w, hassemble, ?_, ?_⟩
  · rw [assembled_iff hassembled rfl]
    exact and_iff_right ⟨text, code, hsource, hcode⟩
  · intro hzero input n
    have hcompiled : Shell.compiled (d.read (x ++ ".asm")) = .ok code :=
      Shell.compiled_eq_ok_iff.mpr ⟨text, Directory.read_eq_ok_iff.mpr hsource, hcode⟩
    have hsaved : w.directory.read (x ++ ".bin") = .ok code.toList := by
      obtain ⟨text', code', hlook, hcode', hdest, -⟩ := hassembled.allOrNothing.all hzero
      rw [World.before, hsource, Option.some.injEq, Node.file.injEq] at hlook
      rw [← Utf8.encode_injective hlook, hcode, Except.ok.injEq] at hcode'
      rw [hcode']
      exact Directory.read_eq_ok_iff.mpr hdest
    constructor
    · intro hne o s v hrun hends ended
      have hloaded : Shell.loaded (w.directory.read (x ++ ".bin")) = .ok code := by
        rw [hsaved, Shell.loaded_toList hne]
      exact ⟨answer_ended (run_source hx _) hcompiled hrun hends,
        answer_ended (exec_code hx _) hloaded hrun hends,
        answer_ended (run_code hx _) hloaded hrun hends, code_eq_zero_iff v _⟩
    · intro hempty hn
      subst hempty
      have hloaded : Shell.loaded (w.directory.read (x ++ ".bin")) = .error .emptyFile := by
        rw [hsaved]
        rfl
      exact ⟨answer_ended (run_source hx _) hcompiled (run_empty hn _) rfl,
        answer_failed (exec_code hx _) hloaded, answer_failed (run_code hx _) hloaded⟩

/-- A program that prints one number, on an input that fails at once if it is read, one that reads it,
and one that is empty. -/
theorem commands_agree_seven :
    let d : Directory := ⟨[(["a.asm"], .file (Utf8.encode "push 7\nout\nhalt")),
      (["b.asm"], .file (Utf8.encode "in")), (["c.asm"], .file (Utf8.encode "; nothing"))]⟩
    let input : Input := .ofBytes [] (some ⟨.isADirectory, .system 21 "Is a directory"⟩)
    let failed := Utf8.encode "io error: Is a directory (os error 21)\n"
    (∃ exit w, (World.before d input 0).run ["assemble", "a" ++ ".asm", "a" ++ ".bin"] =
          some (exit, w) ∧
        exit.code = 0 ∧
        (World.before d input 3).answer? ["run", "a" ++ ".asm", "--minimal"] =
          some ⟨0, none, Utf8.encode "7\nsuccess\n"⟩ ∧
        (World.before w.directory input 3).answer? ["exec", "a" ++ ".bin", "--minimal"] =
          some ⟨0, none, Utf8.encode "7\nsuccess\n"⟩) ∧
      (∃ exit w, (World.before d input 0).run ["assemble", "b" ++ ".asm", "b" ++ ".bin"] =
          some (exit, w) ∧
        exit.code = 0 ∧
        (World.before w.directory input 1).answer? ["exec", "b" ++ ".bin", "--minimal"] =
          some ⟨1, none, failed⟩ ∧
        (World.before w.directory input 1).answer? ["run", "b" ++ ".bin", "--minimal"] =
          some ⟨1, none, failed⟩) ∧
      ∃ exit w, (World.before d input 0).run ["assemble", "c" ++ ".asm", "c" ++ ".bin"] =
          some (exit, w) ∧
        exit.code = 0 ∧
        (World.before w.directory input 1).answer? ["run", "c" ++ ".bin", "--minimal"] =
          some ⟨1, some "File is empty!", []⟩ := by
  intro d input failed
  have stem : ∀ c, c ≠ '/' → c ≠ '-' → Stem (String.singleton c) := by
    intro c hslash hplain
    exact ⟨⟨[], c, String.toList_singleton c, hslash⟩, by simpa using hplain⟩
  have hcode : assemble "push 7\nout\nhalt" = .ok #[14, 0, 0, 0, 0, 0, 0, 28, 64, 2, 11] := by
    decide +kernel
  have hin : assemble "in" = .ok #[1] := by decide +kernel
  have hnone : assemble "; nothing" = .ok #[] := by decide +kernel
  have ha : d.look ("a" ++ ".asm") = some (.file (Utf8.encode "push 7\nout\nhalt")) := by
    decide +kernel
  have hb : d.look ("b" ++ ".asm") = some (.file (Utf8.encode "in")) := by decide +kernel
  have hc : d.look ("c" ++ ".asm") = some (.file (Utf8.encode "; nothing")) := by decide +kernel
  refine ⟨?_, ?_, ?_⟩
  · obtain ⟨exit, w, hrun, hsuccess, hagree⟩ :=
      commands_agree (stem 'a' (by decide) (by decide)) ha hcode input 0
    have hzero : exit.code = 0 := hsuccess.mpr ⟨["a.bin.tmp"], ["a.bin"], by decide +kernel⟩
    obtain ⟨hsource, hexec, -⟩ :=
      (hagree hzero input 3).1 (by decide) _ _ (.ok ()) Prod.mk.eta.symm (by decide +kernel)
    have hended : Answer.ofVerdict (.ok ()) (run #[14, 0, 0, 0, 0, 0, 0, 28, 64, 2, 11] 3
        (.start input .unlimited)).2.store.output.written =
          ⟨0, none, Utf8.encode "7\nsuccess\n"⟩ := by
      decide +kernel
    rw [hended] at hsource hexec
    exact ⟨exit, w, hrun, hzero, hsource, hexec⟩
  · obtain ⟨exit, w, hrun, hsuccess, hagree⟩ :=
      commands_agree (stem 'b' (by decide) (by decide)) hb hin input 0
    have hzero : exit.code = 0 := hsuccess.mpr ⟨["b.bin.tmp"], ["b.bin"], by decide +kernel⟩
    obtain ⟨-, hexec, hload, -⟩ :=
      (hagree hzero input 1).1 (by decide) _ _
        (.error (.io ⟨.isADirectory, .system 21 "Is a directory"⟩)) Prod.mk.eta.symm
        (by decide +kernel)
    have hended : Answer.ofVerdict (.error (.io ⟨.isADirectory, .system 21 "Is a directory"⟩))
        (run #[1] 1 (.start input .unlimited)).2.store.output.written = ⟨1, none, failed⟩ := by
      decide +kernel
    rw [hended] at hexec hload
    exact ⟨exit, w, hrun, hzero, hexec, hload⟩
  · obtain ⟨exit, w, hrun, hsuccess, hagree⟩ :=
      commands_agree (stem 'c' (by decide) (by decide)) hc hnone input 0
    have hzero : exit.code = 0 := hsuccess.mpr ⟨["c.bin.tmp"], ["c.bin"], by decide +kernel⟩
    exact ⟨exit, w, hrun, hzero, ((hagree hzero input 1).2 rfl Nat.one_pos).2.2⟩

theorem answer_help {args : List String} (h : Request.ofArguments args = .help) (d : Directory)
    (input : Input) (n : Nat) :
    (World.before d input n).answer? args = some ⟨0, none, Utf8.encode Shell.helpText⟩ := by
  have hprint : World.print (.before d input n) Shell.helpText =
      (true, ⟨d, ⟨input, { Output.unlimited with
        written := #[] ++ (Utf8.encode Shell.helpText).toArray }⟩, n⟩) := by
    rw [World.print, Output.write_unlimited rfl]
    rfl
  rw [World.answer?, World.run, Shell.answer, h]
  simp only
  rw [World.run_bind, World.run_print, hprint]
  simp [World.stdout, Exit.success]

/-- A file named by its extension alone has none, and a name that begins with a hyphen is read as
flags: what is asked for is the help. -/
theorem named_otherwise :
    let d : Directory := ⟨[([".asm"], .file (Utf8.encode "halt")),
      (["-h.asm"], .file (Utf8.encode "halt"))]⟩
    let w := World.start d [] 1
    (w.run ["assemble", ".asm", ".bin"]).map (fun r =>
        (r.1.code, (World.start r.2.directory [] 1).answer? ["exec", ".bin", "--minimal"])) =
          some (0, some ⟨0, none, Utf8.encode "success\n"⟩) ∧
      w.answer? ["run", ".asm", "--minimal"] =
        some ⟨1, some "File has no extension. Exiting...", []⟩ ∧
      (w.run ["assemble", "-h.asm", "-h.bin"]).map (fun r =>
        (r.1.code, r.2.directory.look "-h.bin")) = some (0, none) ∧
      w.answer? ["run", "-h.asm", "--minimal"] =
        some ⟨0, none, Utf8.encode Shell.helpText⟩ := by
  intro d w
  exact ⟨by decide +kernel, by decide +kernel, by decide +kernel, answer_help (by decide) d _ 1⟩

end StackMachine
