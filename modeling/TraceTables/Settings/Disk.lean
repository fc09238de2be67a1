import TraceTables.Assoc
import TraceTables.Settings.Path

/-! Access to files. A run asks for the bytes of a file and whether a path leads anywhere; `FileTree` answers from
memory. -/

namespace TraceTables.Settings

/-- How files are read; `none` stands for whatever cannot be read. -/
structure Disk (m : Type → Type) where
  read? : String → m (Option (List UInt8))
  present : String → m Bool

/-- Directories and files by the names on the way from the root. -/
structure FileTree where
  directories : List (List String)
  files : List (List String × List UInt8)

inductive Node where
  | directory
  | file (bytes : List UInt8)

namespace FileTree

def isDirectory (t : FileTree) (place : List String) : Bool :=
  place.isEmpty || t.directories.any (fun d => place.isPrefixOf d) ||
    t.files.any fun f => place.isPrefixOf f.1 && place ≠ f.1

/-- Follows names from a directory. A file may only come last. -/
def follow (t : FileTree) (place : List String) : List String → Option Node
  | [] => some .directory
  | name :: names =>
    if name.isEmpty || name = "." then t.follow place names
    else if name = ".." then t.follow place.dropLast names
    else if t.isDirectory (place ++ [name]) then t.follow (place ++ [name]) names
    else if names.isEmpty then (valueAt (place ++ [name]) t.files).map .file
    else none

def splitPath (path : String) : List String := (path.toList.splitOn '/').map String.ofList

/-- The length in bytes from which on a path cannot be followed. -/
def pathLimit : Nat := 4096

/-- What a path leads to, if it is relative from the working directory. The empty path leads nowhere, nor does one that
is too long. -/
def node? (t : FileTree) (directory path : String) : Option Node :=
  if path.isEmpty || pathLimit ≤ path.utf8ByteSize then none else t.follow [] (splitPath (join directory path))

def disk (t : FileTree) (directory : String) : Disk Id where
  read? path :=
    match t.node? directory path with
    | some (.file bytes) => some bytes
    | _ => none
  present path := (t.node? directory path).isSome

end FileTree

end TraceTables.Settings
