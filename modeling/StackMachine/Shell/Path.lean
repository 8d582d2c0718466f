import StackMachine.Text.Blank

/-!
# StackMachine.Shell.Path

File names and their extensions, read off the text of a path.

* `Path.fileName?`: the last name of a path, if it ends in one.
* `Path.extension?`: what follows the last dot of that name, unless the dot begins it.
* `Path.setExtension`, `Path.withExtension`: the path with another extension.
* `Path.components`: the names between slashes; `Path.lastName?` is the last that is not empty.
-/

namespace StackMachine
namespace Path

/-- Drops slashes and single dots between them from the end; the path is given backwards. -/
def dropTail : List Char → List Char
  | '/' :: cs => dropTail cs
  | '.' :: '/' :: cs => dropTail cs
  | cs => cs

def trimmed (path : List Char) : List Char := (dropTail path.reverse).reverse

def afterSlash (path : List Char) : List Char :=
  (path.reverse.takeWhile fun c => c != '/').reverse

/-- The last name of a path. The parent and the directory itself are no names. -/
def fileName? (path : List Char) : Option (List Char) :=
  let name := afterSlash (trimmed path)
  if name = [] ∨ name = ['.'] ∨ name = ['.', '.'] then none else some name

/-- A name cut at its last dot, unless it has none or begins with it. -/
def splitName (name : List Char) : List Char × Option (List Char) :=
  match name.reverse.dropWhile fun c => c != '.' with
  | _ :: c :: stem =>
    ((c :: stem).reverse, some (name.reverse.takeWhile fun c => c != '.').reverse)
  | _ => (name, none)

def extension? (path : String) : Option String :=
  (fileName? path.toList).bind fun name => (splitName name).2.map String.ofList

/-- The path with an extension on its last name, instead of the one it may have. A path without a
last name stays as it is. -/
def setExtension (path ext : List Char) : List Char :=
  match fileName? path with
  | none => path
  | some name =>
    let whole := trimmed path
    let folder := whole.take (whole.length - name.length)
    folder ++ (splitName name).1 ++ '.' :: ext

/-- The path with another extension. The old one is taken off the end of the path before the new
one is set, so that `..asm` becomes the parent `..`, which has no name to extend. -/
def withExtension (path ext : String) : String :=
  let old := (extension? path).getD ""
  let whole := path.toList
  String.ofList (setExtension (whole.take (whole.length - old.length)) ext.toList)

/-- The names of a path, from left to right; a slash at either end makes an empty one. -/
def components (path : String) : List String :=
  (Text.pieces (fun c => c == '/') path.toList).map String.ofList

/-- The last of the names, whatever it is and however many slashes follow it. -/
def lastName? (path : String) : Option String :=
  ((components path).filter fun name => name != "").getLast?

def endsInSlash (path : String) : Bool := (components path).getLast? == some ""

def longest : Nat := 4095

end Path
end StackMachine
