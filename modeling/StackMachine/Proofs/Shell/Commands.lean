import StackMachine.Proofs.Shell.Assembling
import StackMachine.Proofs.Machine.Isolation

/-!
# StackMachine.Proofs.Shell.Commands

What command lines ask for, and what executing code prints.

* `Path.fileName?_append`, `Path.splitName_append`: a name with an extension appended to it.
* `Arguments.IsFile`: what is taken for a file. `Request.ofArguments_assemble`,
  `Request.ofArguments_exec`, `Request.ofArguments_run`: the commands on files.
* `Stem`: what a source and its code are named after; `Stem.extension?`, `Stem.isFile`.
* `Shell.loaded`: the code of what was read from a file of code, `Shell.load_eq`.
* `run_execute`: executing code prints what the run prints, and then its status.
-/

namespace StackMachine

namespace Path

variable {cs ext : List Char} {c : Char}

theorem reverse_append : (cs ++ [c] ++ '.' :: ext).reverse =
    ext.reverse ++ '.' :: c :: cs.reverse := by
  simp

theorem bne_of_mem_reverse {y : Char} (hy : y ∉ ext) : ∀ x ∈ ext.reverse, (x != y) = true := by
  intro x hx
  rw [bne_iff_ne]
  rintro rfl
  exact hy (List.mem_reverse.mp hx)

theorem dropTail_of_ne (hslash : c ≠ '/') (hdot : c ≠ '.') : dropTail (c :: cs) = c :: cs := by
  unfold dropTail
  split
  · next h => exact absurd (List.cons.inj h).1 hslash
  · next h => exact absurd (List.cons.inj h).1 hdot
  · rfl

theorem fileName?_append (cs : List Char) (hc : c ≠ '/') (hslash : '/' ∉ ext) (hdot : '.' ∉ ext)
    (hne : ext ≠ []) :
    ∃ stem, fileName? (cs ++ [c] ++ '.' :: ext) = some (stem ++ [c] ++ '.' :: ext) := by
  have htrimmed : trimmed (cs ++ [c] ++ '.' :: ext) = cs ++ [c] ++ '.' :: ext := by
    obtain ⟨r, rest, hr⟩ := List.exists_cons_of_ne_nil (List.reverse_ne_nil_iff.mpr hne)
    have hmem : r ∈ ext := by
      rw [← List.mem_reverse, hr]
      exact List.mem_cons_self
    rw [trimmed, reverse_append, hr, List.cons_append,
      dropTail_of_ne (fun h => hslash (h ▸ hmem)) (fun h => hdot (h ▸ hmem)), ← List.cons_append,
      ← hr, ← reverse_append, List.reverse_reverse]
  refine ⟨(cs.reverse.takeWhile fun x => x != '/').reverse, ?_⟩
  have hafter : afterSlash (cs ++ [c] ++ '.' :: ext) =
      (cs.reverse.takeWhile fun x => x != '/').reverse ++ [c] ++ '.' :: ext := by
    rw [afterSlash, reverse_append, List.takeWhile_append_of_pos (bne_of_mem_reverse hslash),
      List.takeWhile_cons_of_pos (by decide), List.takeWhile_cons_of_pos (by simpa using hc)]
    simp
  have hlong : ∀ name : List Char, name.length < 3 →
      (cs.reverse.takeWhile fun x => x != '/').reverse ++ [c] ++ '.' :: ext ≠ name := by
    rintro name hname rfl
    have hpos := List.length_pos_iff.mpr hne
    simp only [List.length_append, List.length_cons] at hname
    omega
  rw [fileName?, htrimmed, hafter, if_neg]
  rintro (h | h | h)
  · exact hlong [] (by decide) h
  · exact hlong ['.'] (by decide) h
  · exact hlong ['.', '.'] (by decide) h

/-- The last dot of a name is the one that its extension follows. -/
theorem splitName_append (hdot : '.' ∉ ext) :
    splitName (cs ++ [c] ++ '.' :: ext) = (cs ++ [c], some ext) := by
  have hall := bne_of_mem_reverse hdot
  rw [splitName, reverse_append, List.dropWhile_append_of_pos hall, List.takeWhile_append_of_pos hall,
    List.dropWhile_cons_of_neg (by simp), List.takeWhile_cons_of_neg (by simp), List.append_nil,
    List.reverse_reverse]
  simp

end Path

namespace Arguments

structure IsFile (arg : String) : Prop where
  named : arg ≠ ""
  plain : arg.toList.head? ≠ some '-'

variable {v : Verb} {a : Arguments} {arg : String} {args : List String}

theorem add_file (h : IsFile arg) (hroom : a.files.length < v.mostFiles) :
    a.add v arg = .ok { a with files := a.files ++ [arg] } := by
  have hadd : a.add v arg = a.addFile v arg := by
    have hplain := h.plain
    unfold add
    split
    · rfl
    · next hcs => simp [hcs] at hplain
    · next hcs => simp [hcs] at hplain
    · rfl
  rw [hadd, addFile, if_neg]
  simpa using ⟨h.named, hroom⟩

theorem collect_cons {b : Arguments} (hne : arg ≠ "--") (hadd : a.add v arg = .ok b) :
    a.collect v (arg :: args) = b.collect v args := by
  rw [collect, hadd]
  exact hne

theorem collect_file (h : IsFile arg) (hroom : a.files.length < v.mostFiles) :
    a.collect v (arg :: args) = collect v { a with files := a.files ++ [arg] } args := by
  refine collect_cons ?_ (add_file h hroom)
  rintro rfl
  exact h.plain (by decide)

theorem collect_minimal (h : v.takesMinimal = true) (hfirst : a.minimal = false) :
    a.collect v ("--minimal" :: args) = collect v { a with minimal := true } args := by
  have hadd : a.add v "--minimal" = a.addMinimal v := rfl
  refine collect_cons (by decide) ?_
  rw [hadd, addMinimal, h, hfirst]
  rfl

end Arguments

namespace Request

open Arguments

theorem ofArguments_verb {name : String} {v : Verb} {args : List String} {a : Arguments}
    (hv : Verb.ofName? name = some v) (hargs : Arguments.none.collect v args = .ok a) :
    ofArguments (name :: args) = v.request a := by
  unfold ofArguments
  split
  · next h => cases h
  · next h =>
    cases h
    cases hv
  · next h =>
    cases h
    cases hv
  · next h =>
    cases h
    cases hv
  · next h =>
    cases h
    simp only [hv, hargs]

variable {f g : String}

theorem ofArguments_assemble (hf : IsFile f) (hg : IsFile g) :
    ofArguments ["assemble", f, g] = .command (.assemble f (some g)) := by
  have hfirst : collect .assemble .none [f, g] = collect .assemble ⟨[f], false⟩ [g] :=
    collect_file hf Nat.zero_lt_two
  have hsecond : collect .assemble ⟨[f], false⟩ [g] = collect .assemble ⟨[f, g], false⟩ [] :=
    collect_file hg Nat.one_lt_two
  exact ofArguments_verb (v := .assemble) rfl (hfirst.trans hsecond)

theorem collect_executed {v : Verb} (hv : v.takesMinimal = true) (hf : IsFile f) :
    collect v .none [f, "--minimal"] = .ok ⟨[f], true⟩ := by
  have hroom : 0 < v.mostFiles := by cases v <;> exact Nat.succ_pos _
  have hfile : collect v .none [f, "--minimal"] = collect v ⟨[f], false⟩ ["--minimal"] :=
    collect_file hf hroom
  rw [hfile, collect_minimal hv rfl]
  rfl

theorem ofArguments_exec (hf : IsFile f) :
    ofArguments ["exec", f, "--minimal"] = .command (.exec f true) :=
  ofArguments_verb (v := .exec) rfl (collect_executed rfl hf)

theorem ofArguments_run (hf : IsFile f) :
    ofArguments ["run", f, "--minimal"] = .command (.run f true) :=
  ofArguments_verb (v := .run) rfl (collect_executed rfl hf)

end Request

/-- What a source and its code are named after. It ends in a name, as a file named by its extension
alone has none, and does not begin like a flag. -/
structure Stem (x : String) : Prop where
  named : ∃ cs c, x.toList = cs ++ [c] ∧ c ≠ '/'
  plain : x.toList.head? ≠ some '-'

namespace Stem

variable {x : String} (h : Stem x)

include h

theorem extension? (ext : String) (hslash : '/' ∉ ext.toList) (hdot : '.' ∉ ext.toList)
    (hne : ext ≠ "") : Path.extension? (x ++ "." ++ ext) = some ext := by
  obtain ⟨cs, c, hx, hc⟩ := h.named
  have hpath : (x ++ "." ++ ext).toList = cs ++ [c] ++ '.' :: ext.toList := by
    rw [String.toList_append, String.toList_append, hx]
    simp
  obtain ⟨stem, hstem⟩ := Path.fileName?_append cs hc hslash hdot (by simpa using hne)
  rw [Path.extension?, hpath, hstem, Option.bind_some, Path.splitName_append hdot, Option.map_some,
    String.ofList_toList]

theorem isFile (suffix : String) : Arguments.IsFile (x ++ suffix) := by
  obtain ⟨cs, c, hx, -⟩ := h.named
  obtain ⟨d, ds, hd⟩ := List.exists_cons_of_ne_nil (l := cs ++ [c]) (by simp)
  have hlist : (x ++ suffix).toList = d :: (ds ++ suffix.toList) := by
    rw [String.toList_append, hx, hd, List.cons_append]
  have hplain := h.plain
  rw [hx, hd] at hplain
  refine ⟨?_, ?_⟩
  · intro he
    rw [he] at hlist
    cases hlist
  · rw [hlist]
    exact hplain

end Stem

namespace Shell

def loaded : Except FileError (List UInt8) → Except Failure Code
  | .error e => .error (.file e)
  | .ok [] => .error .emptyFile
  | .ok (b :: bs) => .ok (b :: bs).toArray

theorem load_eq {m : Type → Type} [Monad m] [LawfulMonad m] [Host m] (path : String) :
    (load path : m (Except Failure Code)) = loaded <$> Host.read path := by
  unfold load
  rw [map_eq_pure_bind]
  refine bind_congr fun r => ?_
  rcases r with e | bytes
  · rfl
  · cases bytes <;> rfl

theorem loaded_toList {code : Code} (h : code ≠ #[]) : loaded (.ok code.toList) = .ok code := by
  obtain ⟨bytes⟩ := code
  cases bytes with
  | nil => exact absurd rfl h
  | cons b bs => rfl

end Shell

namespace World

variable (w : World)

theorem run_bind {α β : Type} (x : WorldM α) (f : α → WorldM β) :
    (x >>= f).run w = (x.run w).bind fun r => (f r.1).run r.2 := rfl

theorem run_print (text : String) :
    (Host.print text : WorldM Bool).run w = some (w.print text) := rfl

theorem run_compile (path : String) :
    (Shell.compile path : WorldM _).run w = some (Shell.compiled (w.directory.read path), w) := by
  rw [Shell.compile_eq fun _ => rfl]
  rfl

theorem run_load (path : String) :
    (Shell.load path : WorldM _).run w = some (Shell.loaded (w.directory.read path), w) := by
  rw [Shell.load_eq]
  rfl

end World

section Execute

variable {d : Directory} {code : Code} {input : Input} {n : Nat} {o : Outcome} {s : State}
  {v : Verdict}

theorem execute_before (hrun : run code n (.start input .unlimited) = (o, s))
    (hends : o.verdict? = some v) :
    (World.before d input n).execute code =
      some (v.andAlso s.store.output.flush, ⟨d, ⟨s.store.input, s.store.output⟩, n⟩) := by
  obtain ⟨houtcome, hstate⟩ := walk_visit code
    (fun a made => made.events.foldl (fun _ _ => ()) a) (fun _ _ => ()) n
    (.start input .unlimited) () ()
  rw [run, Prod.mk.injEq, ← houtcome, ← hstate] at hrun
  obtain ⟨rfl, rfl⟩ := hrun
  rw [World.execute, Processor.execute, World.before]
  simp only [hends, Option.map_some]

/-- Executing code prints what the run prints, and then its status. -/
theorem run_execute (hrun : run code n (.start input .unlimited) = (o, s))
    (hends : o.verdict? = some v) (path : String) :
    ∃ u, (Shell.execute path code true : WorldM Exit).run (.before d input n) =
        some (.ofVerdict v, u) ∧
      u.stdout = s.store.output.written.toList ++ Utf8.encode (v.status ++ "\n") := by
  have hreached := reaches_run code n (.start input .unlimited)
  rw [hrun] at hreached
  obtain ⟨hlimit, hflush⟩ := output_reaches hreached
  have hverdict : v.andAlso s.store.output.flush = v := by
    rw [Output.flush, hflush]
    exact v.andAlso_none
  have hexecute : (Host.execute code : WorldM Verdict).run (.before d input n) =
      some (v, ⟨d, ⟨s.store.input, s.store.output⟩, n⟩) := by
    rw [← hverdict]
    exact execute_before hrun hends
  have hprint : World.print ⟨d, ⟨s.store.input, s.store.output⟩, n⟩ (v.status ++ "\n") =
      (true, ⟨d, ⟨s.store.input, { s.store.output with
        written := s.store.output.written ++ (Utf8.encode (v.status ++ "\n")).toArray }⟩, n⟩) := by
    rw [World.print, Output.write_unlimited hlimit]
    rfl
  refine ⟨⟨d, ⟨s.store.input, { s.store.output with
    written := s.store.output.written ++ (Utf8.encode (v.status ++ "\n")).toArray }⟩, n⟩, ?_, ?_⟩
  · rw [Shell.execute, if_pos rfl, World.run_bind, hexecute, Option.bind_some, Shell.print,
      World.run_bind, World.run_print, hprint]
    rfl
  · simp [World.stdout]

end Execute

end StackMachine
