import Embargo.Text.Name
import Embargo.Text.Parts

/-!
The paths of class files below a classpath root, and the names of the classes in
them. A path is made canonical first: relative, with single slashes between its
names, and without `.` and `..`.
-/
namespace Embargo.EntryPath
open Text

/-- Why a path names nothing below a root. -/
inductive Fault where
  | empty
  | absolute (path : String)
  | climbing (path : String)
  | nameless (path : String)
  deriving DecidableEq, Repr

def Fault.message : Fault → String
  | empty => "Empty path"
  | absolute path => "Absolute path not allowed: " ++ path
  | climbing path => "Parent directory traversal not allowed: " ++ path
  | nameless path => "No valid components: " ++ path

/-- The names in a path; empty ones and `.` stand for nothing. -/
def names (path : List Char) : List (List Char) :=
  (Parts.cut '/' path).filter fun name => name ≠ [] ∧ name ≠ ['.']

/-- The canonical form of a path. -/
def canonical (path : String) : Except Fault String :=
  let text := path.toList
  if text = [] then .error .empty
  else if text.head? = some '/' then .error (.absolute path)
  else if ['.', '.'] ∈ names text then .error (.climbing path)
  else if names text = [] then .error (.nameless path)
  else .ok (String.ofList (Parts.join '/' (names text)))

def suffix : List Char := ".class".toList

def metaInf : List Char := "META-INF/".toList

def versions : List Char := "META-INF/versions/".toList

/-- What is left of a text behind its start, if it starts so. -/
def behind? (start text : List Char) : Option (List Char) :=
  if start.isPrefixOf text then some (text.drop start.length) else none

/-- What is left of a text before its end, if it ends so. -/
def before? (stop text : List Char) : Option (List Char) :=
  if stop.isSuffixOf text then some (text.take (text.length - stop.length)) else none

/-- The part of a class file's path that spells its name. Class files for a version
have that of the class they stand in for; other files under `META-INF` have none. -/
def stem? (path : List Char) : Option (List Char) := do
  let stem ← before? suffix path
  match behind? versions stem with
  | some versioned =>
    match versioned.dropWhile (· ≠ '/') with
    | _ :: rest => if (versioned.takeWhile (· ≠ '/')).all Char.isDigit then some rest else none
    | [] => none
  | none => if (behind? metaInf stem).isSome then none else some stem

/-- The last name of a path. -/
def lastName (path : List Char) : List Char := (path.reverse.takeWhile (· ≠ '/')).reverse

/-- The names of class files that hold no class. -/
def classless : List (List Char) := [[], "module-info".toList, "package-info".toList]

/-- The dotted name of the class in the file at a path, if it holds one. -/
def className? (path : String) : Except Fault (Option String) :=
  (canonical path).map fun path =>
    match stem? path.toList with
    | some stem =>
      if lastName stem ∈ classless then none else some (Name.toDotted (String.ofList stem))
    | none => none

/-- The path of the file for a class. -/
def ofClass (name : String) : String :=
  String.ofList ((Name.toInternal name).toList ++ suffix)

/-- Whether a class is in a package or one below it. Dots at the end of the package
do not count; the empty package holds everything. -/
def inPackage (name package : String) : Bool :=
  let package := (package.toList.reverse.dropWhile (· = '.')).reverse
  package.isEmpty ||
    match behind? package name.toList with
    | some rest => rest.head? = some '.'
    | none => false

end Embargo.EntryPath
