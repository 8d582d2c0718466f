import Mathlib.Algebra.Order.Ring.Nat
import StackMachine.Proofs.Shell.Lookup
import StackMachine.Shell.World

/-!
# StackMachine.Proofs.Shell.Saving

Saving a file through a temporary one beside it.

* `Trouble`, `TroubledM`: a world in which files fail without any reason in the directory.
* `Directory.create_eq_ok_iff`, `Directory.rename_eq_ok_iff`, `Directory.remove_cases`: what the
  operations on files do when they succeed.
* `Directory.Accepts`: nothing is in the way of a file that is to be saved.
* `Saves`: what saving can do to a directory. It does nothing else (`saves_save`), and it succeeds
  where nothing is in the way and nothing goes wrong (`saves_ok_iff`).
* `Saves.look_saved`, `Saves.look_dest`, `Saves.look_new`, `Saves.look_other`: what paths name
  afterwards.
-/

namespace StackMachine

open Shell (temporary)

/-- What may go wrong with files although nothing in the directory is in the way. A move or a removal
that fails has not begun. -/
structure Trouble where
  read : Option FileError
  create : Option FileError
  /-- So many bytes of a file are written, and then no more. -/
  write : Option (Nat × FileError)
  rename : Option FileError
  remove : Option FileError

abbrev TroubledM := ReaderT Trouble WorldM

namespace Trouble

def none : Trouble := ⟨.none, .none, .none, .none, .none⟩

def reads (t : Trouble) (w : World) (path : String) : Except FileError (List UInt8) :=
  match t.read with
  | some e => .error e
  | .none => w.directory.read path

/-- Makes a file. What was written of it stays if not all can be written. -/
def makes (t : Trouble) (w : World) (path : String) (content : List UInt8) :
    Except FileError Unit × World :=
  match t.create, t.write with
  | some e, _ => (.error e, w)
  | .none, .none => w.change (w.directory.create path content)
  | .none, some (n, e) =>
    match w.change (w.directory.create path (content.take n)) with
    | (.error refusal, w) => (.error refusal, w)
    | (.ok (), w) => (.error e, w)

def moves (t : Trouble) (w : World) (source dest : String) : Except FileError Unit × World :=
  match t.rename with
  | some e => (.error e, w)
  | .none => w.change (w.directory.rename source dest)

/-- Nobody asks why a file could not be removed. -/
def removes (t : Trouble) (w : World) (path : String) : World :=
  match t.remove with
  | some _ => w
  | .none => { w with directory := w.directory.remove path }

end Trouble

instance : Host TroubledM where
  print text _ := Host.print text
  read path t w := some (t.reads w path, w)
  create path content t w := some (t.makes w path content)
  rename source dest t w := some (t.moves w source dest)
  remove path t w := some ((), t.removes w path)
  execute code _ := Host.execute code
  log e _ := Host.log e

namespace Directory

variable {d e : Directory} {p q : Place} {path source dest : String} {bytes : List UInt8}

theorem create_eq_ok_iff : d.create path bytes = .ok e ↔
    ∃ p, d.resolve path = .ok p ∧ d.get? p ≠ some .folder ∧ e = d.put p (.file bytes) := by
  unfold create
  cases d.resolve path with
  | error f => simp
  | ok p =>
    simp only [Except.ok.injEq, exists_eq_left']
    rcases d.get? p with _ | ⟨content⟩ | _ <;> simp [eq_comm]

theorem requireVacancy_eq_ok_iff : d.requireVacancy dest q = .ok () ↔
    Path.endsInSlash dest = false ∧ d.get? q ≠ some .folder := by
  unfold requireVacancy
  cases Path.endsInSlash dest with
  | true => simp
  | false =>
    simp only
    rcases d.get? q with _ | ⟨content⟩ | _ <;> simp

theorem rename_eq_ok_iff : d.rename source dest = .ok e ↔
    ∃ p q content, d.resolve source = .ok p ∧ d.resolve dest = .ok q ∧
      renameRefusal? dest = none ∧ d.get? p = some (.file content) ∧
      Path.endsInSlash dest = false ∧ d.get? q ≠ some .folder ∧
      e = (d.erase p).put q (.file content) := by
  unfold rename
  constructor
  · intro h
    split at h
    · cases h
    · cases h
    · cases h
    · rename_i p q hp hq hname
      split at h
      · cases h
      · cases h
      · rename_i content hcontent
        cases hv : d.requireVacancy dest q with
        | error f =>
          rw [hv] at h
          cases h
        | ok u =>
          rw [hv] at h
          cases h
          obtain ⟨hslash, hq'⟩ := requireVacancy_eq_ok_iff.mp hv
          exact ⟨p, q, content, hp, hq, hname, hcontent, hslash, hq', rfl⟩
  · rintro ⟨p, q, content, hp, hq, hname, hcontent, hslash, hq', rfl⟩
    simp only [hp, hq, hname, hcontent, requireVacancy_eq_ok_iff.mpr ⟨hslash, hq'⟩]

theorem remove_cases (d : Directory) (path : String) : d.remove path = d ∨
    ∃ p, d.resolve path = .ok p ∧ d.get? p ≠ some .folder ∧ d.remove path = d.erase p := by
  unfold remove
  cases d.resolve path with
  | error f => exact .inl rfl
  | ok p =>
    cases hn : d.get? p with
    | none => exact .inl (by simp [hn])
    | some n =>
      cases n with
      | folder => exact .inl (by simp [hn])
      | file content => exact .inr ⟨p, rfl, by simp [hn], by simp [hn]⟩

end Directory

def World.withDirectory (w : World) (d : Directory) : World := { w with directory := d }

namespace Trouble

variable (t : Trouble) (w : World)

section Run

variable {α β : Type} (path source dest text : String) (content : List UInt8)

theorem run_pure (a : α) : ((pure a : TroubledM α).run t).run w = some (a, w) := rfl

theorem run_bind (x : TroubledM α) (f : α → TroubledM β) :
    ((x >>= f).run t).run w = ((x.run t).run w).bind fun r => ((f r.1).run t).run r.2 := rfl

theorem run_print :
    ((Host.print text : TroubledM Bool).run t).run w = some (w.print text) := rfl

theorem run_create :
    ((Host.create path content : TroubledM _).run t).run w = some (t.makes w path content) := rfl

theorem run_rename :
    ((Host.rename source dest : TroubledM _).run t).run w = some (t.moves w source dest) := rfl

theorem run_remove :
    ((Host.remove path : TroubledM Unit).run t).run w = some ((), t.removes w path) := rfl

end Run

variable {t w} {path source dest : String} {content : List UInt8} {r : Except FileError Unit}
  {v : World}

/-- A file is made, or a beginning of it, or nothing has happened. -/
theorem makes_cases (h : t.makes w path content = (r, v)) :
    (∃ e, r = .error e ∧ v = w) ∨
      ∃ p bytes, w.directory.resolve path = .ok p ∧ w.directory.get? p ≠ some .folder ∧
        v = w.withDirectory (w.directory.put p (.file bytes)) ∧ bytes <+: content ∧
        (r = .ok () → bytes = content) := by
  unfold makes World.change at h
  split at h
  · cases h
    exact .inl ⟨_, rfl, rfl⟩
  · cases hd : w.directory.create path content with
    | error f =>
      rw [hd] at h
      cases h
      exact .inl ⟨f, rfl, rfl⟩
    | ok d =>
      rw [hd] at h
      cases h
      obtain ⟨p, hp, hvacant, rfl⟩ := Directory.create_eq_ok_iff.mp hd
      exact .inr ⟨p, content, hp, hvacant, rfl, List.prefix_rfl, fun _ => rfl⟩
  · rename_i n f _ _
    cases hd : w.directory.create path (content.take n) with
    | error g =>
      rw [hd] at h
      cases h
      exact .inl ⟨g, rfl, rfl⟩
    | ok d =>
      rw [hd] at h
      cases h
      obtain ⟨p, hp, hvacant, rfl⟩ := Directory.create_eq_ok_iff.mp hd
      exact .inr ⟨p, content.take n, hp, hvacant, rfl, List.take_prefix n content, by simp⟩

theorem moves_cases (h : t.moves w source dest = (r, v)) :
    (∃ e, r = .error e ∧ v = w) ∨
      ∃ d, w.directory.rename source dest = .ok d ∧ v = w.withDirectory d ∧ r = .ok () := by
  unfold moves World.change at h
  split at h
  · cases h
    exact .inl ⟨_, rfl, rfl⟩
  · cases hd : w.directory.rename source dest with
    | error f =>
      rw [hd] at h
      cases h
      exact .inl ⟨f, rfl, rfl⟩
    | ok d =>
      rw [hd] at h
      cases h
      exact .inr ⟨d, rfl, rfl, rfl⟩

theorem removes_cases (t : Trouble) (w : World) (path : String) :
    t.remove ≠ .none ∧ t.removes w path = w ∨
      t.removes w path = w.withDirectory (w.directory.remove path) := by
  unfold removes
  cases t.remove with
  | some e => exact .inl ⟨by simp, rfl⟩
  | none => exact .inr rfl

end Trouble

/-- Nothing is in the way of a file that is saved at a path. -/
structure Directory.Accepts (d : Directory) (dest : String) (p q : Place) : Prop where
  temporary : d.resolve (temporary dest) = .ok p
  temporary_vacant : d.get? p ≠ some .folder
  target : d.resolve dest = .ok q
  target_vacant : d.get? q ≠ some .folder
  named : Directory.renameRefusal? dest = none
  ends : Path.endsInSlash dest = false

instance (d : Directory) (dest : String) (p q : Place) : Decidable (d.Accepts dest p q) :=
  decidable_of_iff
    (d.resolve (temporary dest) = .ok p ∧ d.get? p ≠ some .folder ∧ d.resolve dest = .ok q ∧
      d.get? q ≠ some .folder ∧ Directory.renameRefusal? dest = none ∧
      Path.endsInSlash dest = false)
    ⟨fun ⟨htemporary, hp, htarget, hq, hnamed, hends⟩ =>
      ⟨htemporary, hp, htarget, hq, hnamed, hends⟩,
      fun h => ⟨h.temporary, h.temporary_vacant, h.target, h.target_vacant, h.named, h.ends⟩⟩

/-- What saving can do to a directory. -/
inductive Saves (t : Trouble) (d : Directory) (dest : String) (bytes : List UInt8) :
    Except Failure Unit → Directory → Prop where
  | saved {p q : Place} {e : Directory} : d.Accepts dest p q →
      (∀ x, e.get? x = if x = q then some (.file bytes) else if x = p then none else d.get? x) →
      Saves t d dest bytes (.ok ()) e
  | cleared {p : Place} {e : Directory} {f : Failure} : d.resolve (temporary dest) = .ok p →
      d.get? p ≠ some .folder → (∀ x, e.get? x = if x = p then none else d.get? x) →
      Saves t d dest bytes (.error f) e
  /-- What was written of the temporary file could not be removed. -/
  | left {p : Place} {e : Directory} {f : Failure} {part : List UInt8} : t.remove ≠ none →
      d.resolve (temporary dest) = .ok p → d.get? p ≠ some .folder → part <+: bytes →
      (∀ x, e.get? x = if x = p then some (.file part) else d.get? x) →
      Saves t d dest bytes (.error f) e
  | kept {f : Failure} : Saves t d dest bytes (.error f) d

section Saves

variable {t : Trouble} {d : Directory} {dest : String} {bytes content : List UInt8} {p : Place}

theorem saves_remove (f : Failure) :
    Saves t d dest content (.error f) (d.remove (temporary dest)) := by
  rcases d.remove_cases (temporary dest) with h | ⟨p, hp, hvacant, h⟩
  · rw [h]
    exact .kept
  · rw [h]
    exact .cleared hp hvacant (Directory.get?_erase_file hvacant)

theorem saves_remove_put (hp : d.resolve (temporary dest) = .ok p)
    (hvacant : d.get? p ≠ some .folder) (f : Failure) :
    Saves t d dest content (.error f) ((d.put p (.file bytes)).remove (temporary dest)) := by
  have hp' := (Directory.sameFolders_put hvacant bytes).resolve.mp hp
  have hfile : (d.put p (.file bytes)).get? p = some (.file bytes) := by
    rw [Directory.get?_put_file hvacant, if_pos rfl]
  have hremove : (d.put p (.file bytes)).remove (temporary dest) =
      (d.put p (.file bytes)).erase p := by
    simp only [Directory.remove, hp', hfile]
  rw [hremove]
  refine .cleared hp hvacant ?_
  intro x
  rw [Directory.get?_erase_file (by simp [hfile]), Directory.get?_put_file hvacant]
  by_cases hx : x = p
  · rw [if_pos hx, if_pos hx]
  · rw [if_neg hx, if_neg hx, if_neg hx]

theorem saves_removes (t : Trouble) (w : World) (dest : String) (content : List UInt8)
    (f : Failure) : ∃ e, t.removes w (temporary dest) = w.withDirectory e ∧
      Saves t w.directory dest content (.error f) e := by
  rcases t.removes_cases w (temporary dest) with ⟨-, h⟩ | h
  · exact ⟨w.directory, h, .kept⟩
  · exact ⟨_, h, saves_remove f⟩

theorem saves_removes_put {w : World} (hp : w.directory.resolve (temporary dest) = .ok p)
    (hvacant : w.directory.get? p ≠ some .folder) (hpart : bytes <+: content) (f : Failure) :
    ∃ e, t.removes (w.withDirectory (w.directory.put p (.file bytes))) (temporary dest) =
        w.withDirectory e ∧ Saves t w.directory dest content (.error f) e := by
  rcases t.removes_cases (w.withDirectory (w.directory.put p (.file bytes))) (temporary dest) with
    ⟨hstuck, h⟩ | h
  · exact ⟨_, h, .left hstuck hp hvacant hpart (Directory.get?_put_file hvacant bytes)⟩
  · exact ⟨_, h, saves_remove_put hp hvacant f⟩

theorem saves_rename_put (hp : d.resolve (temporary dest) = .ok p)
    (hvacant : d.get? p ≠ some .folder) {e : Directory}
    (he : (d.put p (.file bytes)).rename (temporary dest) dest = .ok e) :
    Saves t d dest bytes (.ok ()) e := by
  have hfolders := Directory.sameFolders_put hvacant bytes
  obtain ⟨p', q, content, hp', hq, hnamed, hcontent, hends, hvacant', rfl⟩ :=
    Directory.rename_eq_ok_iff.mp he
  rw [hfolders.resolve.mp hp, Except.ok.injEq] at hp'
  subst hp'
  have hfile : (d.put p (.file bytes)).get? p = some (.file bytes) := by
    rw [Directory.get?_put_file hvacant, if_pos rfl]
  rw [hfile] at hcontent
  cases hcontent
  have herase := Directory.sameFolders_erase (p := p) (by simp [hfile] :
    (d.put p (.file bytes)).get? p ≠ some .folder)
  have hq' : d.get? q ≠ some .folder := fun h => hvacant' ((hfolders q).mp h)
  refine .saved ⟨hp, hvacant, hfolders.resolve.mpr hq, hq', hnamed, hends⟩ ?_
  intro x
  rw [Directory.get?_put_file fun h => hvacant' ((herase q).mpr h),
    Directory.get?_erase_file (by simp [hfile]), Directory.get?_put_file hvacant]
  by_cases hx : x = p
  · rw [if_pos hx, if_pos hx]
  · rw [if_neg hx, if_neg hx, if_neg hx]

theorem saves_save (t : Trouble) (w : World) (dest : String) (code : Code) :
    ∃ r e, ((Shell.save dest code : TroubledM _).run t).run w = some (r, w.withDirectory e) ∧
      Saves t w.directory dest code.toList r e := by
  unfold Shell.save
  simp only [Trouble.run_bind, Trouble.run_create, Option.bind_some]
  cases hmakes : t.makes w (temporary dest) code.toList with
  | mk made v =>
    cases made with
    | error f =>
      simp only [Trouble.run_bind, Trouble.run_remove, Option.bind_some, Trouble.run_pure]
      rcases Trouble.makes_cases hmakes with ⟨-, -, rfl⟩ | ⟨p, bytes, hp, hvacant, rfl, hpart, -⟩
      · obtain ⟨e, he, hsaves⟩ := saves_removes t v dest code.toList (.file f)
        exact ⟨_, e, by rw [he], hsaves⟩
      · obtain ⟨e, he, hsaves⟩ := saves_removes_put (t := t) hp hvacant hpart (.file f)
        exact ⟨_, e, by rw [he], hsaves⟩
    | ok u =>
      rcases Trouble.makes_cases hmakes with ⟨f, hf, -⟩ | ⟨p, bytes, hp, hvacant, rfl, -, hbytes⟩
      · cases hf
      obtain rfl := hbytes rfl
      simp only [Trouble.run_bind, Trouble.run_rename, Option.bind_some]
      cases hmoves : t.moves _ (temporary dest) dest with
      | mk moved v =>
        cases moved with
        | error f =>
          simp only [Trouble.run_bind, Trouble.run_remove, Option.bind_some, Trouble.run_pure]
          rcases Trouble.moves_cases hmoves with ⟨-, -, rfl⟩ | ⟨-, -, -, h⟩
          · obtain ⟨e, he, hsaves⟩ :=
              saves_removes_put (t := t) hp hvacant List.prefix_rfl (.file f)
            exact ⟨_, e, by rw [he], hsaves⟩
          · cases h
        | ok u =>
          rcases Trouble.moves_cases hmoves with ⟨f, h, -⟩ | ⟨e, he, rfl, -⟩
          · cases h
          · exact ⟨_, e, rfl, saves_rename_put hp hvacant he⟩

/-- Where nothing goes wrong, a file is saved if and only if nothing is in its way. -/
theorem saves_ok_iff (w : World) (dest : String) (code : Code) :
    (∃ v, ((Shell.save dest code : TroubledM _).run .none).run w = some (.ok (), v)) ↔
      ∃ p q, w.directory.Accepts dest p q := by
  constructor
  · rintro ⟨v, h⟩
    obtain ⟨r, e, hsave, hsaves⟩ := saves_save .none w dest code
    rw [h, Option.some.injEq, Prod.mk.injEq] at hsave
    obtain ⟨rfl, -⟩ := hsave
    cases hsaves with
    | saved haccepts _ => exact ⟨_, _, haccepts⟩
  · rintro ⟨p, q, haccepts⟩
    have hfolders := Directory.sameFolders_put haccepts.temporary_vacant code.toList
    have hcreate : w.directory.create (temporary dest) code.toList =
        .ok (w.directory.put p (.file code.toList)) :=
      Directory.create_eq_ok_iff.mpr ⟨p, haccepts.temporary, haccepts.temporary_vacant, rfl⟩
    have hrename : (w.directory.put p (.file code.toList)).rename (temporary dest) dest =
        .ok (((w.directory.put p (.file code.toList)).erase p).put q (.file code.toList)) := by
      refine Directory.rename_eq_ok_iff.mpr ⟨p, q, code.toList,
        hfolders.resolve.mp haccepts.temporary, hfolders.resolve.mp haccepts.target, haccepts.named,
        ?_, haccepts.ends, fun h => haccepts.target_vacant ((hfolders q).mpr h), rfl⟩
      rw [Directory.get?_put_file haccepts.temporary_vacant, if_pos rfl]
    unfold Shell.save
    simp only [Trouble.run_bind, Trouble.run_create, Option.bind_some, Trouble.makes,
      Trouble.none, World.change, hcreate, Trouble.run_rename, Trouble.moves, hrename,
      Trouble.run_pure]
    exact ⟨_, rfl⟩

end Saves

namespace Saves

variable {t : Trouble} {d e : Directory} {dest path : String} {bytes : List UInt8}
  {r : Except Failure Unit} {f : Failure}

theorem sameFolders (h : Saves t d dest bytes r e) : Directory.SameFolders d e := by
  cases h with
  | saved haccepts hget =>
    intro x
    rw [hget]
    split
    · next hx => exact iff_of_false (hx ▸ haccepts.target_vacant) (by simp)
    · split
      · next hx => exact iff_of_false (hx ▸ haccepts.temporary_vacant) (by simp)
      · rfl
  | cleared hp hvacant hget =>
    intro x
    rw [hget]
    split
    · next hx => exact iff_of_false (hx ▸ hvacant) (by simp)
    · rfl
  | left _ hp hvacant _ hget =>
    intro x
    rw [hget]
    split
    · next hx => exact iff_of_false (hx ▸ hvacant) (by simp)
    · rfl
  | kept => exact fun _ => Iff.rfl

/-- A saved file is there whole, and alone. -/
theorem look_saved (h : Saves t d dest bytes (.ok ()) e) :
    e.look dest = some (.file bytes) ∧ e.look (temporary dest) = none := by
  have hfolders := h.sameFolders
  cases h with
  | saved haccepts hget =>
    have hne := Directory.ne_of_resolve_temporary haccepts.temporary haccepts.target
    rw [Directory.look_of_resolve (hfolders.resolve.mp haccepts.target),
      Directory.look_of_resolve (hfolders.resolve.mp haccepts.temporary), hget, hget,
      if_pos rfl, if_neg hne, if_pos rfl]
    exact ⟨rfl, rfl⟩

/-- A destination where nothing is saved stays what it was. -/
theorem look_dest (h : Saves t d dest bytes (.error f) e) : e.look dest = d.look dest := by
  have hfolders := h.sameFolders
  cases h with
  | cleared hp hvacant hget =>
    refine hfolders.look_same fun x hx => ?_
    rw [hget, if_neg (Directory.ne_of_resolve_temporary hp hx).symm]
  | left _ hp hvacant _ hget =>
    refine hfolders.look_same fun x hx => ?_
    rw [hget, if_neg (Directory.ne_of_resolve_temporary hp hx).symm]
  | kept => rfl

/-- Nothing is new where nothing is saved, but what is left of the temporary file. -/
theorem look_new (h : Saves t d dest bytes (.error f) e) (hpath : d.look path = none) :
    e.look path = none ∨ t.remove ≠ none ∧ d.resolve path = d.resolve (temporary dest) ∧
      ∃ part, part <+: bytes ∧ e.look path = some (.file part) := by
  have hfolders := h.sameFolders
  cases h with
  | @cleared p _ _ hp hvacant hget =>
    left
    by_cases hx : d.resolve path = .ok p
    · rw [Directory.look_of_resolve (hfolders.resolve.mp hx), hget, if_pos rfl]
    · rw [hfolders.look_ne (fun x hx => by rw [hget, if_neg hx]) hx, hpath]
  | @left p _ _ part hstuck hp hvacant hpart hget =>
    by_cases hx : d.resolve path = .ok p
    · refine .inr ⟨hstuck, hx.trans hp.symm, part, hpart, ?_⟩
      rw [Directory.look_of_resolve (hfolders.resolve.mp hx), hget, if_pos rfl]
    · exact .inl ((hfolders.look_ne (fun x hx => by rw [hget, if_neg hx]) hx).trans hpath)
  | kept => exact .inl hpath

theorem look_other (h : Saves t d dest bytes r e) (hdest : d.resolve path ≠ d.resolve dest)
    (htemporary : d.resolve path ≠ d.resolve (temporary dest)) : e.look path = d.look path := by
  have hfolders := h.sameFolders
  cases h with
  | saved haccepts hget =>
    rw [haccepts.target] at hdest
    rw [haccepts.temporary] at htemporary
    refine hfolders.look_same fun x hx => ?_
    rw [hget, if_neg, if_neg]
    · rintro rfl
      exact htemporary hx
    · rintro rfl
      exact hdest hx
  | cleared hp hvacant hget =>
    rw [hp] at htemporary
    exact hfolders.look_ne (fun x hx => by rw [hget, if_neg hx]) htemporary
  | left _ hp hvacant _ hget =>
    rw [hp] at htemporary
    exact hfolders.look_ne (fun x hx => by rw [hget, if_neg hx]) htemporary
  | kept => rfl

end Saves

end StackMachine
