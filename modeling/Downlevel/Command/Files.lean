import Downlevel.Dict
import Downlevel.Text.Split

/-! # Files

What is asked of a file system, and a file system that is a value. Paths are resolved the way they
are on disk: every part but the last has to be a directory, also one that `..` leaves. -/

namespace Downlevel

structure Files (m : Type → Type) where
  isFile : String → m Bool
  isDirectory : String → m Bool
  read : String → m (Option String)
  entries : String → m (List String)

inductive FileTree where
  | file (text : String)
  | directory (entries : List (String × FileTree))

namespace FileTree

def empty : FileTree := directory []

def isDirectory : FileTree → Bool
  | directory _ => true
  | file _ => false

def entries : FileTree → Dict FileTree
  | directory entries => entries
  | file _ => []

def find? (t : FileTree) : List String → Option FileTree
  | [] => some t
  | name :: rest => (t.entries.get? name).bind (·.find? rest)

/-- Puts a tree at a place; what stands in the way is replaced by directories. -/
def put (t : FileTree) (new : FileTree) : List String → FileTree
  | [] => new
  | name :: rest =>
    let below := (t.entries.get? name).getD empty
    directory (Dict.put t.entries name (below.put new rest))

def putDirectory (t : FileTree) (place : List String) : FileTree :=
  match t.find? place with
  | some (directory _) => t
  | _ => t.put empty place

def parts (path : String) : List String := (Text.split '/' path.toList).map String.ofList

/-- The place that parts of a path lead to from the place `here`, of which the last name comes
first; none if it is not there or above the tree. -/
def walk? (t : FileTree) (here : List String) : List String → Option (List String)
  | [] => some here
  | part :: rest => do
    let node ← t.find? here.reverse
    if !node.isDirectory then none
    if part == "" || part == "." then t.walk? here rest
    else if part == ".." then
      match here with
      | [] => none
      | _ :: above => t.walk? above rest
    else
      if (node.entries.get? part).isNone then none
      t.walk? (part :: here) rest

/-- What a path leads to from a directory. Paths from the root and the empty path lead nowhere. -/
def resolve? (t : FileTree) (directory : List String) (path : String) : Option FileTree :=
  match path.toList with
  | [] | '/' :: _ => none
  | _ => (t.walk? directory.reverse (parts path)).bind fun place => t.find? place.reverse

def files (t : FileTree) (here : List String) : Files Id where
  isFile path := (t.resolve? here path).any fun node => !node.isDirectory
  isDirectory path := (t.resolve? here path).any (·.isDirectory)
  read path :=
    match t.resolve? here path with
    | some (file text) => some text
    | _ => none
  entries path := ((t.resolve? here path).map fun node => node.entries.keys).getD []

def names (path : String) : List String := (parts path).filter fun part => part != "" && part != "."

def ofFiles (files : List (String × String)) (directory : String) : FileTree :=
  (files.foldl (fun t (path, text) => t.put (file text) (names path)) empty).putDirectory
    (names directory)

end FileTree

end Downlevel
