import Embargo.Storage.Access
import Embargo.Text.Parts

/-!
A file system without links as a finite map from canonical paths to files and
directories, and the storage operations on it.

A path is followed name by name. Every name but the last must stand for a
directory, and so must the last where `.` or a slash comes behind it.
-/
namespace Embargo
open Text

namespace Storage

/-- A canonical path: the names from the root on. -/
abbrev Location := List String

inductive Node where
  | file (bytes : List UInt8)
  | directory
  deriving DecidableEq, Repr

structure Tree where
  /-- The directory where relative paths start. -/
  workingDirectory : Location
  /-- All nodes but the root. -/
  nodes : List (Location × Node)
  deriving DecidableEq, Repr

namespace Tree

def node? (tree : Tree) (location : Location) : Option Node :=
  if location = [] then some .directory else tree.nodes.lookup location

/-- A node put at a location in place of any that is there. -/
def putNode (location : Location) (node : Node) :
    List (Location × Node) → List (Location × Node)
  | [] => [(location, node)]
  | (here, old) :: rest =>
    if here = location then (here, node) :: rest else (here, old) :: putNode location node rest

def put (tree : Tree) (location : Location) (node : Node) : Tree :=
  { tree with nodes := putNode location node tree.nodes }

def erase (tree : Tree) (location : Location) : Tree :=
  { tree with nodes := tree.nodes.filter fun (here, _) => here ≠ location }

/-- A node put at a location, with directories above it where there is nothing. -/
def grow (tree : Tree) (location : Location) (node : Node) : Tree :=
  let parents := (List.range location.length).map location.take
  (parents.foldl (fun tree parent =>
    if (tree.node? parent).isSome then tree else tree.put parent .directory) tree).put
      location node

/-- Follows names from a node on. -/
def follow (tree : Tree) : List String → Location → Node → Except StorageFault (Location × Node)
  | [], location, node => .ok (location, node)
  | _ :: _, _, .file _ => .error .notDirectory
  | name :: rest, location, .directory =>
    if name = "" ∨ name = "." then tree.follow rest location .directory
    else if name = ".." then tree.follow rest location.dropLast .directory
    else if 255 < name.utf8ByteSize then .error .nameTooLong
    else
      match tree.node? (location ++ [name]) with
      | some node => tree.follow rest (location ++ [name]) node
      | none => .error .missing

/-- The names of a path and the location where it starts. -/
def names (tree : Tree) (path : String) : Except StorageFault (Location × List String) :=
  if path.isEmpty then .error .missing
  else if path.toList.contains '\x00' then .error .nulInPath
  else
    .ok (if path.toList.head? = some '/' then [] else tree.workingDirectory,
      (Parts.cut '/' path.toList).map String.ofList)

/-- Whether a path is too long to be opened. -/
def isTooLong (path : String) : Bool := 4096 ≤ path.utf8ByteSize

/-- The node that is opened at a path, and where it is. -/
def find (tree : Tree) (path : String) : Except StorageFault (Location × Node) := do
  let (start, names) ← tree.names path
  if isTooLong path then throw .nameTooLong
  tree.follow names start .directory

/-- Where a file of a path's name is or may be created. -/
def target (tree : Tree) (path : String) : Except StorageFault Location := do
  let (start, names) ← tree.names path
  if isTooLong path then throw .nameTooLong
  let trailing := names.reverse.takeWhile String.isEmpty
  let names := (names.reverse.dropWhile String.isEmpty).reverse
  match names.getLast? with
  | none => throw .isDirectory
  | some last =>
    match ← tree.follow names.dropLast start .directory with
    | (_, .file _) => throw .notDirectory
    | (parent, .directory) =>
      if last = "." ∨ last = ".." ∨ trailing ≠ [] then throw .isDirectory
      else if 255 < last.utf8ByteSize then throw .nameTooLong
      else
        match tree.node? (parent ++ [last]) with
        | some .directory => throw .isDirectory
        | _ => return parent ++ [last]

/-- The text of a canonical path. -/
def pathText (location : Location) : String := "/" ++ "/".intercalate location

/-- The nodes strictly below a location with their paths relative to it, in order. -/
def below (tree : Tree) (location : Location) : List (Location × Node) :=
  let nodes := tree.nodes.filterMap fun (here, node) =>
    if location.isPrefixOf here && location.length < here.length then
      some (here.drop location.length, node)
    else none
  nodes.mergeSort fun (a, _) (b, _) => !decide (b < a)

/-- The paths of the files strictly below a location, relative to it, in order. -/
def filesBelow (tree : Tree) (location : Location) : List Location :=
  (tree.below location).filterMap fun
    | (here, .file _) => some here
    | (_, .directory) => none

/-- The fault of opening a directory inside another one, if there is one. -/
def faultInside (base : String) (names : List String) : Option StorageFault :=
  if isTooLong (join base ("/".intercalate names)) then some .nameTooLong else none

/-- What the listing of a directory shows for a node inside it. What is below a
directory that cannot be opened is not shown. -/
def listed (base : String) (names : Location) (node : Node) :
    Option (Except StorageFault String) :=
  if names.dropLast ≠ [] ∧ (faultInside base names.dropLast).isSome then none
  else
    match node with
    | .file _ => some (.ok ("/".intercalate names))
    | .directory => (faultInside base names).map .error

/-- The canonical path of what a path names. The path itself may have any length. -/
def resolve (tree : Tree) (path : String) : Except StorageFault String := do
  let (start, names) ← tree.names path
  let (location, _) ← tree.follow names start .directory
  return pathText location

def isDirectory (tree : Tree) (path : String) : Bool :=
  match tree.find path with
  | .ok (_, .directory) => true
  | _ => false

def read (tree : Tree) (path : String) : Except StorageFault (List UInt8) := do
  match ← tree.find path with
  | (_, .file bytes) => return bytes
  | (_, .directory) => throw .isDirectory

def list (tree : Tree) (path : String) : List (Except StorageFault String) :=
  match tree.find path with
  | .error fault => [.error fault]
  | .ok (_, .file _) => [.ok ""]
  | .ok (location, .directory) =>
    (tree.below location).filterMap fun (names, node) => listed path names node

/-- An outcome together with the tree that is left. -/
def write (tree : Tree) (path : String) (bytes : List UInt8) : Except StorageFault Unit × Tree :=
  match tree.target path with
  | .error fault => (.error fault, tree)
  | .ok location => (.ok (), tree.put location (.file bytes))

def remove (tree : Tree) (path : String) : Except StorageFault Unit × Tree :=
  match tree.find path with
  | .error fault => (.error fault, tree)
  | .ok (_, .directory) => (.error .isDirectory, tree)
  | .ok (location, .file _) => (.ok (), tree.erase location)

end Tree

instance : Storage (StateM Tree) where
  resolve path := fun tree => (tree.resolve path, tree)
  isDirectory path := fun tree => (tree.isDirectory path, tree)
  read path := fun tree => (tree.read path, tree)
  write path bytes := fun tree => tree.write path bytes
  remove path := fun tree => tree.remove path
  list path := fun tree => (tree.list path, tree)

end Storage

end Embargo
