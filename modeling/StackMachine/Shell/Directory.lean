import StackMachine.Shell.Path

/-!
# StackMachine.Shell.Directory

A directory of files, as far as the command line can see it.

* `Directory.get?`: the view, the node at a place.
* `Directory.resolve`: the place that a path names.
* `Directory.read`, `Directory.create`, `Directory.rename`, `Directory.remove`: the operations.
* `Directory.listing`: the nodes of the directory itself, in order of their names.

A path is resolved from left to right; each name but the last must be that of a folder. Of what
lies outside, only the folders above the directory and the root of absolute paths are there.
-/

namespace StackMachine

inductive Node where
  | file (content : List UInt8)
  | folder
deriving DecidableEq

inductive FileError where
  | notFound
  | busy
  | notADirectory
  | isADirectory
  | nameTooLong
  /-- Any other cause, in the words of the system. -/
  | system (text : String)
deriving DecidableEq

def FileError.message : FileError → String
  | notFound => "No such file or directory (os error 2)"
  | busy => "Device or resource busy (os error 16)"
  | notADirectory => "Not a directory (os error 20)"
  | isADirectory => "Is a directory (os error 21)"
  | nameTooLong => "File name too long (os error 36)"
  | system text => text

/-- The names on the way from the directory to a node. Outside, the way begins with steps to the
parent, or with the root. -/
abbrev Place := List String

namespace Place

def root : Place := ["/"]

/-- Whether a place is the directory itself or a folder above it. -/
def isAbove (p : Place) : Bool := p.all fun name => name == ".."

def longestName : Nat := 255

/-- The place one name further. The root is its own parent. -/
def enter (p : Place) (name : String) : Except FileError Place :=
  if name = "" ∨ name = "." then .ok p
  else if name = ".." then
    if p = root then .ok p
    else if p.isAbove then .ok (p ++ [name])
    else .ok p.dropLast
  else if longestName < name.utf8ByteSize then .error .nameTooLong
  else .ok (p ++ [name])

end Place

structure Directory where
  entries : List (Place × Node)

namespace Directory

/-- The node at a place; the directory itself and what is above it are folders. -/
def get? (d : Directory) (p : Place) : Option Node :=
  if p.isAbove ∨ p = Place.root then some .folder else d.entries.lookup p

def erase (d : Directory) (p : Place) : Directory := ⟨d.entries.filter fun e => e.1 != p⟩

def put (d : Directory) (p : Place) (n : Node) : Directory := ⟨(p, n) :: (d.erase p).entries⟩

def requireFolder (d : Directory) (p : Place) : Except FileError Unit :=
  match d.get? p with
  | none => .error .notFound
  | some (.file _) => .error .notADirectory
  | some .folder => .ok ()

def follow (d : Directory) : Place → List String → Except FileError Place
  | p, [] => .ok p
  | p, name :: names =>
    match d.requireFolder p with
    | .error e => .error e
    | .ok () =>
      match p.enter name with
      | .error e => .error e
      | .ok q => d.follow q names

/-- The place that the names of a path lead to. An empty one in front stands for the root. -/
def walk (d : Directory) : List String → Except FileError Place
  | "" :: names => d.follow Place.root names
  | names => d.follow [] names

/-- The place a path names; nothing need be there. -/
def resolve (d : Directory) (path : String) : Except FileError Place :=
  if path = "" then .error .notFound
  else if Path.longest < path.utf8ByteSize then .error .nameTooLong
  else d.walk (Path.components path)

def read (d : Directory) (path : String) : Except FileError (List UInt8) :=
  match d.resolve path with
  | .error e => .error e
  | .ok p =>
    match d.get? p with
    | none => .error .notFound
    | some .folder => .error .isADirectory
    | some (.file content) => .ok content

def create (d : Directory) (path : String) (content : List UInt8) : Except FileError Directory :=
  match d.resolve path with
  | .error e => .error e
  | .ok p =>
    match d.get? p with
    | some .folder => .error .isADirectory
    | _ => .ok (d.put p (.file content))

/-- Why no file can be renamed to a path, judging by its last name alone. -/
def renameRefusal? (path : String) : Option FileError :=
  match Path.lastName? path with
  | none => some .busy
  | some "." => some .busy
  | some ".." => some .busy
  | _ => none

def requireVacancy (d : Directory) (path : String) (q : Place) : Except FileError Unit :=
  if Path.endsInSlash path then .error .notADirectory
  else
    match d.get? q with
    | some .folder => .error .isADirectory
    | _ => .ok ()

def rename (d : Directory) (source dest : String) : Except FileError Directory :=
  match d.resolve source, d.resolve dest, renameRefusal? dest with
  | .error e, _, _ => .error e
  | _, .error e, _ => .error e
  | .ok _, .ok _, some e => .error e
  | .ok p, .ok q, none =>
    match d.get? p with
    | none => .error .notFound
    | some .folder => .error .isADirectory
    | some (.file content) =>
      match d.requireVacancy dest q with
      | .error e => .error e
      | .ok () => .ok ((d.erase p).put q (.file content))

/-- Removes a file; nothing else is ever removed. -/
def remove (d : Directory) (path : String) : Directory :=
  match d.resolve path with
  | .error _ => d
  | .ok p =>
    match d.get? p with
    | some (.file _) => d.erase p
    | _ => d

def listing (d : Directory) : List (String × Node) :=
  let named := d.entries.filterMap fun e =>
    match e.1 with
    | [name] => some (name, e.2)
    | _ => none
  named.mergeSort fun a b => decide (a.1 ≤ b.1)

theorem lookup_filter_ne {α β : Type} [DecidableEq α] [BEq α] [LawfulBEq α]
    (l : List (α × β)) (k x : α) :
    (l.filter fun e => e.1 != k).lookup x = if x = k then none else l.lookup x := by
  induction l with
  | nil => simp
  | cons e l ih =>
    obtain ⟨a, b⟩ := e
    by_cases ha : a = k
    · subst ha
      rw [List.filter_cons_of_neg (by simp), ih]
      by_cases hx : x = a
      · simp [hx]
      · have hb : (x == a) = false := by simpa using hx
        simp [List.lookup_cons, hx, hb]
    · rw [List.filter_cons_of_pos (by simpa using ha)]
      by_cases hx : x = a
      · subst hx
        simp [ha]
      · have hb : (x == a) = false := by simpa using hx
        simp [List.lookup_cons, hb, ih]

theorem get?_erase (d : Directory) (p q : Place) :
    (d.erase p).get? q =
      if q.isAbove ∨ q = Place.root then some .folder
      else if q = p then none else d.get? q := by
  by_cases h : q.isAbove ∨ q = Place.root
  · simp [get?, h]
  · simp only [get?, h, if_false]
    exact lookup_filter_ne d.entries p q

theorem get?_put (d : Directory) (p q : Place) (n : Node) :
    (d.put p n).get? q =
      if q.isAbove ∨ q = Place.root then some .folder
      else if q = p then some n else d.get? q := by
  by_cases h : q.isAbove ∨ q = Place.root
  · simp [get?, h]
  · by_cases hq : q = p
    · subst hq
      simp [put, get?, h]
    · have hb : (q == p) = false := by simpa using hq
      have he : (d.erase p).get? q = _ := d.get?_erase p q
      simp only [get?, h, if_false, hq] at he
      simp [put, get?, h, List.lookup_cons, hb, he, hq]

end Directory
end StackMachine
