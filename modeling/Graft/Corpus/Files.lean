import Graft.Corpus.Path

/-!
# Files

The part of a file system that a corpus sees, as a value. Folders exist by themselves, so that a
folder stays when its last file is removed.
-/

namespace Graft

/-- What is in a file: a text, or bytes that may be none. -/
inductive Content where
  | text (text : String)
  | bytes (bytes : List UInt8)
deriving Repr, DecidableEq

/-- The text of a file; none if its bytes are not well-formed UTF-8. -/
def Content.read? : Content → Option String
  | text t => some t
  | bytes bs => String.fromUTF8? ⟨bs.toArray⟩

/-- The names on the way from the top to a file or a folder. -/
abbrev Location := List String

/-- Files and folders by their locations. -/
structure Files where
  files : List (Location × Content)
  folders : List Location
deriving Repr

/-- What is at a location. -/
inductive Found where
  | file (content : Content)
  | folder

namespace Files

/-- An empty top folder. -/
def empty : Files := ⟨[], [[]]⟩

def at? (fs : Files) (location : Location) : Option Found :=
  match fs.files.lookup location with
  | some content => some (.file content)
  | none => if fs.folders.contains location then some .folder else none

/-- Follow components from a folder on. Only a folder has anything in it, and nothing is above the
top. -/
def follow (fs : Files) : Location → List Component → Option Location
  | location, [] => some location
  | location, c :: cs =>
    if fs.folders.contains location then
      match c with
      | .root => none
      | .here => follow fs location cs
      | .parent => if location.isEmpty then none else follow fs location.dropLast cs
      | .name text =>
        let next := location ++ [text]
        if (fs.at? next).isSome then follow fs next cs else none
    else none

/-- The location of a path and what is there. An empty path means nothing. -/
def find? (fs : Files) (path : String) : Option (Location × Found) :=
  if path.isEmpty then none
  else
    match follow fs [] (Path.components path) with
    | none => none
    | some location =>
      match fs.at? location with
      | some .folder => some (location, .folder)
      | some (.file content) =>
        if Path.namesFolder path then none else some (location, .file content)
      | none => none

/-- The text of the file at a path. -/
def read? (fs : Files) (path : String) : Option String :=
  match fs.find? path with
  | some (_, .file content) => content.read?
  | _ => none

/-- The location of a path whether there is something or not. -/
def locate (path : String) : Location :=
  (Path.components path).foldl (fun location c =>
    match c with
    | .name text => location ++ [text]
    | .parent => location.dropLast
    | .root | .here => location) []

/-- Make sure that a folder and those around it exist. -/
def addFolder (fs : Files) (location : Location) : Files :=
  (List.range (location.length + 1)).foldl (fun fs depth =>
    let folder := location.take depth
    if fs.folders.contains folder then fs else { fs with folders := fs.folders ++ [folder] }) fs

/-- Write a file, with the folders around it. -/
def write (fs : Files) (path : String) (content : Content) : Files :=
  let location := locate path
  let fs := fs.addFolder location.dropLast
  { fs with files := (location, content) :: fs.files.filter fun file => file.1 != location }

/-- Make an empty folder. -/
def makeFolder (fs : Files) (path : String) : Files :=
  fs.addFolder (locate path)

/-- Remove a file. -/
def remove (fs : Files) (path : String) : Files :=
  let location := locate path
  { fs with files := fs.files.filter fun file => file.1 != location }

/-- The source files under a path in the order of paths, shown as the path goes on; a path of a
file lists that file. Where there is nothing, there is no list. -/
def listSources? (fs : Files) (path : String) : Option (List String) :=
  match fs.find? path with
  | none => none
  | some (_, .file _) => some (if Path.isSource path then [path] else [])
  | some (location, .folder) =>
    let inside := fs.files.filterMap fun file =>
      if location.isPrefixOf file.1 then
        some (Path.join path ("/".intercalate (file.1.drop location.length)))
      else none
    some (Path.sort (inside.filter Path.isSource))

end Files

end Graft
