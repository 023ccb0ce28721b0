import DirectiveTemplates.Directive.Resource
import DirectiveTemplates.Files.Location

/-!
Files below a working directory, and what opening and reading them by name leads to.
-/
namespace DirectiveTemplates.Files

inductive FileError where
  | notFound
  | notDirectory
  | isDirectory
  | nameTooLong
  | nulInName
  | notText
  | other (message : String)
  deriving DecidableEq, Repr

def FileError.message : FileError → String
  | notFound => "No such file or directory (os error 2)"
  | notDirectory => "Not a directory (os error 20)"
  | isDirectory => "Is a directory (os error 21)"
  | nameTooLong => "File name too long (os error 36)"
  | nulInName => "file name contained an unexpected NUL byte"
  | notText => "stream did not contain valid UTF-8"
  | other message => message

abbrev FileReader := String → Except FileError (List UInt8)

def readText (files : FileReader) (path : String) : Except FileError String :=
  match files path with
  | .error e => .error e
  | .ok bytes =>
    match Text.decodeUtf8? bytes with
    | some text => .ok text
    | none => .error .notText

/-- The files below a directory as resources. A directory can be opened and not read. -/
def resourcesBelow (files : FileReader) (root : String) : Resources := fun name =>
  match files (join root name) with
  | .ok bytes => .stream bytes none
  | .error .notFound => .absent
  | .error .isDirectory => .stream [] (some FileError.isDirectory.message)
  | .error e => .refused e.message

inductive Entry where
  | directory
  | file (bytes : List UInt8)
  deriving DecidableEq, Repr

/-- Files and directories by location. Of entries with one location the first counts. -/
structure FileTree where
  entries : List (Location × Entry)
  deriving DecidableEq, Repr

namespace FileTree

def empty : FileTree := ⟨[]⟩

/-- The working directory and all above it are there in every tree. -/
def get? (t : FileTree) (l : Location) : Option Entry :=
  if l.isGiven then some .directory else t.entries.lookup l

/-- Puts an entry where nothing is, or a file in place of a file. A directory never turns into a
file, nor a file into a directory. -/
def put (t : FileTree) (l : Location) (e : Entry) : FileTree :=
  match t.get? l, e with
  | none, _ | some (.file _), .file _ => ⟨(l, e) :: t.entries⟩
  | _, _ => t

/-- One part further along a name. What it leads to becomes a directory. -/
def enterMaking (s : FileTree × Location) (part : String) : FileTree × Location :=
  let next := s.2.enter part
  (s.1.put next .directory, next)

/-- The tree with one more file and with the directories that its name passes through. A name that
ends in a slash adds directories only. -/
def add (t : FileTree) (name : String) (bytes : List UInt8) : FileTree :=
  let parts := Files.parts name
  let (made, l) := parts.dropLast.foldl enterMaking (t, Location.start name)
  made.put (l.enter (parts.getLastD "")) (.file bytes)

structure Place where
  location : Location
  entry : Entry
  deriving DecidableEq, Repr

/-- One step along a path. Only a directory can be entered, by any part. -/
def enter (t : FileTree) (p : Place) (part : String) : Except FileError Place :=
  match p.entry with
  | .file _ => .error .notDirectory
  | .directory =>
    if Location.maxPartSize < part.utf8ByteSize then .error .nameTooLong
    else
      let next := p.location.enter part
      match t.get? next with
      | some e => .ok ⟨next, e⟩
      | none => .error .notFound

def find (t : FileTree) (path : String) : Except FileError Place :=
  if path.toList.contains '\x00' then .error .nulInName
  else if path = "" then .error .notFound
  else if Location.maxPathSize < path.utf8ByteSize then .error .nameTooLong
  else (parts path).foldlM t.enter ⟨Location.start path, .directory⟩

def read (t : FileTree) : FileReader := fun path =>
  match t.find path with
  | .ok ⟨_, .file bytes⟩ => .ok bytes
  | .ok ⟨_, .directory⟩ => .error .isDirectory
  | .error e => .error e

end FileTree

end DirectiveTemplates.Files
