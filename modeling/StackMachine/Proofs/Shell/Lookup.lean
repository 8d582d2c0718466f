import StackMachine.Proofs.Text.Words
import StackMachine.Shell.Directory

/-!
# StackMachine.Proofs.Shell.Lookup

What paths name, and what they name after a file has come or gone.

* `Directory.look`: what a path names, if anything.
* `Directory.SameFolders`: the folders of two directories are the same. Then every path leads to the
  same place in both (`SameFolders.resolve`).
* `Directory.get?_put_file`, `Directory.get?_erase_file`: the nodes after a file was put where no
  folder is, or taken away there; the folders stay (`sameFolders_put`, `sameFolders_erase`).
* `Path.exists_components`: what is appended to a path is appended to its last name.
* `Directory.exists_way`: the way to a path and to the same path with something appended is the same
  up to the last name.
* `Directory.ne_of_resolve_temporary`: a file and the temporary one beside it are at two places.
-/

namespace StackMachine

namespace Directory

/-- What a path names, if anything. -/
def look (d : Directory) (path : String) : Option Node :=
  match d.resolve path with
  | .ok p => d.get? p
  | .error _ => none

theorem look_of_resolve {d : Directory} {path : String} {p : Place} (h : d.resolve path = .ok p) :
    d.look path = d.get? p := by
  simp only [look, h]

theorem read_eq_ok_iff {d : Directory} {path : String} {bytes : List UInt8} :
    d.read path = .ok bytes ↔ d.look path = some (.file bytes) := by
  simp only [read, look]
  cases d.resolve path with
  | error e => simp
  | ok p =>
    simp only
    rcases d.get? p with _ | ⟨content⟩ | _ <;> simp

section Change

variable {d : Directory} {p : Place} (hp : d.get? p ≠ some .folder)

include hp

theorem not_outside : ¬ (p.isAbove ∨ p = Place.root) := by
  intro h
  exact hp (by rw [get?, if_pos h])

theorem get?_put_file (bytes : List UInt8) (x : Place) :
    (d.put p (.file bytes)).get? x = if x = p then some (.file bytes) else d.get? x := by
  rw [get?_put]
  by_cases hx : x.isAbove ∨ x = Place.root
  · have hne : x ≠ p := by
      rintro rfl
      exact not_outside hp hx
    rw [if_pos hx, if_neg hne, get?, if_pos hx]
  · rw [if_neg hx]

theorem get?_erase_file (x : Place) :
    (d.erase p).get? x = if x = p then none else d.get? x := by
  rw [get?_erase]
  by_cases hx : x.isAbove ∨ x = Place.root
  · have hne : x ≠ p := by
      rintro rfl
      exact not_outside hp hx
    rw [if_pos hx, if_neg hne, get?, if_pos hx]
  · rw [if_neg hx]

end Change

/-- The same places are folders. -/
def SameFolders (d e : Directory) : Prop :=
  ∀ p, d.get? p = some .folder ↔ e.get? p = some .folder

theorem sameFolders_of_ne {d e : Directory} {p : Place} (hd : d.get? p ≠ some .folder)
    (he : e.get? p ≠ some .folder) (h : ∀ x, x ≠ p → e.get? x = d.get? x) : SameFolders d e := by
  intro x
  by_cases hx : x = p
  · subst hx
    exact iff_of_false hd he
  · rw [h x hx]

theorem sameFolders_put {d : Directory} {p : Place} (hp : d.get? p ≠ some .folder)
    (bytes : List UInt8) : SameFolders d (d.put p (.file bytes)) := by
  refine sameFolders_of_ne hp ?_ ?_
  · rw [get?_put_file hp, if_pos rfl]
    simp
  · intro x hx
    rw [get?_put_file hp, if_neg hx]

theorem sameFolders_erase {d : Directory} {p : Place} (hp : d.get? p ≠ some .folder) :
    SameFolders d (d.erase p) := by
  refine sameFolders_of_ne hp ?_ ?_
  · rw [get?_erase_file hp, if_pos rfl]
    simp
  · intro x hx
    rw [get?_erase_file hp, if_neg hx]

section Resolve

variable {d e : Directory} {p q : Place}

theorem requireFolder_eq_ok_iff : d.requireFolder p = .ok () ↔ d.get? p = some .folder := by
  unfold requireFolder
  rcases d.get? p with _ | ⟨content⟩ | _ <;> simp

theorem follow_cons_eq_ok_iff {name : String} {names : List String} :
    d.follow p (name :: names) = .ok q ↔
      d.get? p = some .folder ∧ ∃ r, p.enter name = .ok r ∧ d.follow r names = .ok q := by
  rw [follow, ← requireFolder_eq_ok_iff]
  cases d.requireFolder p with
  | error e => simp
  | ok u =>
    cases p.enter name with
    | error e => simp
    | ok r => simp

theorem follow_append_eq_ok_iff {names more : List String} :
    d.follow p (names ++ more) = .ok q ↔
      ∃ r, d.follow p names = .ok r ∧ d.follow r more = .ok q := by
  induction names generalizing p with
  | nil => simp [follow]
  | cons name names ih =>
    rw [List.cons_append, follow_cons_eq_ok_iff]
    simp only [ih, follow_cons_eq_ok_iff]
    constructor
    · rintro ⟨hp, s, hs, r, hr, hq⟩
      exact ⟨r, ⟨hp, s, hs, hr⟩, hq⟩
    · rintro ⟨r, ⟨hp, s, hs, hr⟩, hq⟩
      exact ⟨hp, s, hs, r, hr, hq⟩

theorem SameFolders.follow (h : SameFolders d e) {names : List String} :
    d.follow p names = .ok q ↔ e.follow p names = .ok q := by
  induction names generalizing p with
  | nil => rfl
  | cons name names ih =>
    rw [follow_cons_eq_ok_iff, follow_cons_eq_ok_iff, h p]
    simp only [ih]

theorem SameFolders.resolve (h : SameFolders d e) {path : String} :
    d.resolve path = .ok q ↔ e.resolve path = .ok q := by
  unfold Directory.resolve
  split
  · simp
  · split
    · simp
    · unfold walk
      split
      · exact h.follow
      · exact h.follow

theorem SameFolders.look_same (h : SameFolders d e) {path : String}
    (hsame : ∀ x, d.resolve path = .ok x → e.get? x = d.get? x) : e.look path = d.look path := by
  cases hd : d.resolve path with
  | error f =>
    cases he : e.resolve path with
    | error g => simp only [look, hd, he]
    | ok x =>
      rw [h.resolve.mpr he] at hd
      cases hd
  | ok x => rw [look_of_resolve hd, look_of_resolve (h.resolve.mp hd), hsame x hd]

theorem SameFolders.look_ne (h : SameFolders d e) (hne : ∀ x, x ≠ p → e.get? x = d.get? x)
    {path : String} (hp : d.resolve path ≠ .ok p) : e.look path = d.look path := by
  refine h.look_same fun x hx => hne x ?_
  rintro rfl
  exact hp hx

end Resolve

end Directory

namespace Text

/-- What is appended to a text without any separator is appended to its last piece. -/
theorem exists_last_piece (separates : Char → Bool) (cs : List Char) :
    ∃ front last, (front = [] → last = cs) ∧ ∀ ds, (∀ c ∈ ds, separates c = false) →
      pieces separates (cs ++ ds) = front ++ [last ++ ds] := by
  induction cs with
  | nil => exact ⟨[], [], fun _ => rfl, fun ds h => pieces_of_no_separator separates h⟩
  | cons c cs ih =>
    obtain ⟨front, last, hlast, hpieces⟩ := ih
    cases hc : separates c with
    | true =>
      refine ⟨[] :: front, last, by simp, ?_⟩
      intro ds h
      simp [pieces, hc, hpieces ds h]
    | false =>
      cases front with
      | nil =>
        refine ⟨[], c :: last, fun h => by rw [hlast h], ?_⟩
        intro ds h
        simp [pieces, hc, hpieces ds h]
      | cons f fs =>
        refine ⟨(c :: f) :: fs, last, by simp, ?_⟩
        intro ds h
        simp [pieces, hc, hpieces ds h]

end Text

/-- No slash, so that it can only be part of a name. -/
def Path.NoSlash (s : String) : Prop := '/' ∉ s.toList

theorem Path.exists_components (path : String) :
    ∃ folders name, (folders = [] → name = path) ∧ ∀ suffix, NoSlash suffix →
      components (path ++ suffix) = folders ++ [name ++ suffix] := by
  obtain ⟨front, last, hlast, hpieces⟩ :=
    Text.exists_last_piece (fun c => c == '/') path.toList
  refine ⟨front.map String.ofList, String.ofList last, ?_, ?_⟩
  · intro hfront
    rw [hlast (List.map_eq_nil_iff.mp hfront), String.ofList_toList]
  · intro suffix hslash
    have hsuffix : ∀ c ∈ suffix.toList, (c == '/') = false := by
      intro c hc
      rw [beq_eq_false_iff_ne]
      rintro rfl
      exact hslash hc
    rw [components, String.toList_append, hpieces _ hsuffix, List.map_append, List.map_singleton,
      String.ofList_append, String.ofList_toList]

namespace Directory

theorem resolve_eq_ok {d : Directory} {path : String} {p : Place} (h : d.resolve path = .ok p) :
    path ≠ "" ∧ d.walk (Path.components path) = .ok p := by
  unfold resolve at h
  split at h
  · cases h
  · rename_i hne
    split at h
    · cases h
    · exact ⟨hne, h⟩

/-- The way to a path, up to its last name, which is the one that something is appended to. -/
theorem exists_way (path : String) :
    ∃ base folders name, ∀ (d : Directory) (suffix : String) (p : Place), Path.NoSlash suffix →
      d.resolve (path ++ suffix) = .ok p →
        ∃ r, d.follow base folders = .ok r ∧ r.enter (name ++ suffix) = .ok p := by
  obtain ⟨folders, name, hname, hcomponents⟩ := Path.exists_components path
  have hlast : ∀ (d : Directory) (base : Place) (folders : List String) (last : String) (p : Place),
      d.follow base (folders ++ [last]) = .ok p →
        ∃ r, d.follow base folders = .ok r ∧ r.enter last = .ok p := by
    intro d base folders last p h
    obtain ⟨r, hr, hend⟩ := follow_append_eq_ok_iff.mp h
    obtain ⟨-, q, hq, hp⟩ := follow_cons_eq_ok_iff.mp hend
    cases hp
    exact ⟨r, hr, hq⟩
  -- An empty first name stands for the root, unless it is the last one too.
  by_cases habsolute : ∃ rest, folders = "" :: rest
  · obtain ⟨rest, rfl⟩ := habsolute
    refine ⟨Place.root, rest, name, ?_⟩
    intro d suffix p hslash h
    obtain ⟨-, hwalk⟩ := resolve_eq_ok h
    rw [hcomponents suffix hslash] at hwalk
    exact hlast d _ _ _ p hwalk
  · refine ⟨[], folders, name, ?_⟩
    intro d suffix p hslash h
    obtain ⟨hne, hwalk⟩ := resolve_eq_ok h
    rw [hcomponents suffix hslash, walk] at hwalk
    · exact hlast d _ _ _ p hwalk
    · intro names hnames
      cases folders with
      | nil =>
        rw [List.nil_append, List.cons.injEq, hname rfl] at hnames
        exact absurd hnames.1 hne
      | cons f fs =>
        rw [List.cons_append, List.cons.injEq] at hnames
        exact absurd ⟨fs, by rw [hnames.1]⟩ habsolute

end Directory

namespace Place

theorem ne_of_length {s t : String} (h : s.length ≠ t.length) : s ≠ t := by
  rintro rfl
  exact h rfl

theorem enter_temporary {r p : Place} {name : String} (h : r.enter (name ++ ".tmp") = .ok p) :
    p = r ++ [name ++ ".tmp"] := by
  have hlong : 4 ≤ (name ++ ".tmp").length := by
    rw [String.length_append]
    exact Nat.le_add_left 4 _
  have hne : ∀ s : String, s.length < 4 → name ++ ".tmp" ≠ s := by
    intro s hs
    exact ne_of_length (by omega)
  unfold enter at h
  rw [if_neg (by
    rintro (h | h)
    · exact hne "" (by decide) h
    · exact hne "." (by decide) h), if_neg (hne ".." (by decide))] at h
  split at h
  · cases h
  · cases h
    rfl

/-- A file and the temporary file beside it stand at different places. -/
theorem ne_of_enter_temporary {r p q : Place} {name : String} (hq : r.enter name = .ok q)
    (hp : r.enter (name ++ ".tmp") = .ok p) : p ≠ q := by
  have hlonger : name ++ ".tmp" ≠ name := by
    apply ne_of_length
    rw [String.length_append]
    exact Nat.ne_of_gt (Nat.lt_add_of_pos_right (by decide))
  rw [enter_temporary hp]
  unfold enter at hq
  intro h
  split at hq
  · cases hq
    simp at h
  · split at hq
    · rename_i hdots
      split at hq
      · cases hq
        simp at h
      · split at hq
        · cases hq
          simp only [List.append_cancel_left_eq, List.cons.injEq, and_true] at h
          exact hlonger h
        · cases hq
          have := congrArg List.length h
          simp only [List.length_append, List.length_dropLast, List.length_singleton] at this
          omega
    · split at hq
      · cases hq
      · cases hq
        simp only [List.append_cancel_left_eq, List.cons.injEq, and_true] at h
        exact hlonger h

end Place

theorem Directory.ne_of_resolve_temporary {d : Directory} {dest : String} {p q : Place}
    (hp : d.resolve (dest ++ ".tmp") = .ok p) (hq : d.resolve dest = .ok q) : p ≠ q := by
  obtain ⟨base, folders, name, hway⟩ := exists_way dest
  obtain ⟨r, hr, hp⟩ := hway d ".tmp" p (by simp [Path.NoSlash]) hp
  obtain ⟨r', hr', hq⟩ := hway d "" q (by simp [Path.NoSlash]) (by rwa [String.append_empty])
  rw [hr, Except.ok.injEq] at hr'
  subst hr'
  rw [String.append_empty] at hq
  exact Place.ne_of_enter_temporary hq hp

end StackMachine
