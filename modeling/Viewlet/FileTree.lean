import Viewlet.Text.Lines

/-!
Files in directories, and how a path leads to one of them. A path is followed part by part,
and every part but the last has to lead to a directory.
-/

namespace Viewlet

/-- Why a file was not read. -/
inductive FileError where
  | missing
  | notDirectory
  | isDirectory
  | nameTooLong
  | notText
  | other (text : String)
  deriving DecidableEq, Repr

/-- The cause in words. -/
def FileError.message : FileError → String
  | .missing => "No such file or directory (os error 2)"
  | .notDirectory => "Not a directory (os error 20)"
  | .isDirectory => "Is a directory (os error 21)"
  | .nameTooLong => "File name too long (os error 36)"
  | .notText => "stream did not contain valid UTF-8"
  | .other text => text

/-- Where a file or a directory is: the names that lead to it from the top directory. -/
abbrev Place := List String

namespace Place

/-- Where a part of a path leads from a directory. -/
def step (place : Place) (part : String) : Place :=
  if part = "" ∨ part = "." then place
  else if part = ".." then place.dropLast
  else place ++ [part]

end Place

/-- The texts of files, and the directory where paths begin. -/
structure FileTree where
  start : Place
  files : List (Place × String)
  deriving DecidableEq, Repr

namespace FileTree

/-- The most bytes that a name may have. -/
def maxName : Nat := 255

/-- The most bytes that a path may have. -/
def maxPath : Nat := 4095

/-- The parts of a path. -/
def parts (path : String) : List String :=
  (Text.pieces '/' path.toList).map String.ofList

/-- The directory where a path begins: the top directory if a slash comes first. -/
def origin (start : Place) (path : String) : Place :=
  if path.toList.head? = some '/' then [] else start

/-- The tree of files given by their paths. The name of the directory where they begin holds
a slash, so that no path can spell it. -/
def ofFiles (files : List (String × String)) : FileTree :=
  let start := ["/"]
  { start := start
    files := files.map fun (path, text) =>
      ((parts path).foldl Place.step (origin start path), text) }

/-- The text of the file at a place. -/
def text? (tree : FileTree) (place : Place) : Option String :=
  tree.files.lookup place

/-- Whether there is a directory at a place: one in which paths begin or a file is, or one
above such a directory. -/
def isDirectory (tree : FileTree) (place : Place) : Bool :=
  place.isPrefixOf tree.start || tree.files.any fun file => place.isPrefixOf file.1.dropLast

/-- Follows the parts of a path from a place. -/
def follow (tree : FileTree) (place : Place) : List String → Except FileError Place
  | [] => .ok place
  | part :: rest =>
      if tree.isDirectory place then
        if maxName < part.utf8ByteSize then .error .nameTooLong
        else tree.follow (place.step part) rest
      else if (tree.text? place).isSome then .error .notDirectory
      else .error .missing

/-- A path that can be followed leads where its parts lead one after the other. -/
theorem eq_foldl_step_of_follow {tree : FileTree} {place target : Place} {path : List String}
    (h : tree.follow place path = .ok target) : target = path.foldl Place.step place := by
  induction path generalizing place with
  | nil =>
      rw [follow] at h
      exact (Except.ok.inj h).symm
  | cons part rest ih =>
      rw [follow] at h
      split at h
      · split at h
        · contradiction
        · exact ih h
      · split at h <;> contradiction

/-- Reads the file that a path leads to. -/
def read (tree : FileTree) (path : String) : Except FileError String := do
  if path.isEmpty then throw .missing
  if maxPath < path.utf8ByteSize then throw .nameTooLong
  let place ← tree.follow (origin tree.start path) (parts path)
  match tree.text? place with
  | some text => return text
  | none => throw (if tree.isDirectory place then .isDirectory else .missing)

end FileTree

end Viewlet
