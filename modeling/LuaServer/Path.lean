/-
# Paths and files

A path is kept in a normal form: no empty parts, no `.`, no slash at the end, and one slash in front
unless there were exactly two.  `..` is kept, because what it leads to depends on the file system.

* `normalizePath`: the normal form.
* `FileTree`: files below a working directory; `FileTree.read?` finds a file by its path.
-/
import LuaServer.Table
import LuaServer.Text.Utf8

namespace LuaServer

/-! ## 1. Normal forms -/

/-- The parts of a path that count. -/
def pathParts (t : Text) : List Text :=
  (splitOn (code '/') t).filter fun p => p ≠ [] ∧ p ≠ [code '.']

/-- The slashes in front of a path: none, one, or exactly two. -/
def pathRoot (t : Text) : Text :=
  match (t.takeWhile (· = code '/')).length with
  | 0 => []
  | 2 => text "//"
  | _ => text "/"

/-- The normal form of a path. -/
def normalizePath (t : Text) : Text :=
  match pathRoot t ++ join (text "/") (pathParts t) with
  | [] => text "."
  | p => p

/-- A path below another one. -/
def joinPath (base name : Text) : Text :=
  let base := normalizePath base
  if base = text "." then name
  else if pathParts base = [] then base ++ name
  else base ++ text "/" ++ name

/-! ## 2. Files -/

/-- What a name in a file system stands for. -/
inductive FileEntry where
  | file (content : Bytes)
  | directory
deriving DecidableEq

/-- The files of a host, and the directory from which paths that do not begin with a slash are followed.
All places are given by their parts from the root on. -/
structure FileTree where
  cwd : List Text
  entries : List (List Text × FileEntry)

namespace FileTree

/-- A directory stands at a place: it is one, or something stands below it. -/
def isDirectory (tree : FileTree) (place : List Text) : Bool :=
  place.isPrefixOf tree.cwd
    || tree.entries.any fun (p, e) =>
      place.isPrefixOf p && (p.length != place.length || e = .directory)

/-- The content of the file at a place. -/
def contentAt? (tree : FileTree) (place : List Text) : Option Bytes :=
  match tree.entries.find? fun (p, _) => p = place with
  | some (_, .file content) => some content
  | _ => none

/-- The place from which the parts of a path are followed. -/
def start (tree : FileTree) (path : Text) : List Text :=
  if path.head? = some (code '/') then [] else tree.cwd

/-- The place to which a part of a path leads. -/
def step (place : List Text) (part : Text) : List Text :=
  if part = text ".." then place.dropLast else place ++ [part]

/-- The place to which the parts of a path lead from a directory.  Every part but the last must lead to
a directory. -/
def resolve? (tree : FileTree) (place : List Text) : List Text → Option (List Text)
  | [] => some place
  | p :: ps => if tree.isDirectory place then tree.resolve? (step place p) ps else none

/-- The place to which a path leads.  The empty path leads nowhere. -/
def place? (tree : FileTree) (path : Text) : Option (List Text) :=
  if path = [] then none else tree.resolve? (tree.start path) (pathParts path)

/-- The place that a path names, whether or not its parts can be followed. -/
def namedPlace (tree : FileTree) (path : Text) : List Text :=
  (pathParts path).foldl step (tree.start path)

/-- The content of the file with a path. -/
def read? (tree : FileTree) (path : Text) : Option Bytes := (tree.place? path).bind tree.contentAt?

/-- A path leads to a directory. -/
def isDirectoryPath (tree : FileTree) (path : Text) : Bool :=
  (tree.place? path).any tree.isDirectory

end FileTree
end LuaServer
