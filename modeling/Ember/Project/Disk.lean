import Ember.Fault
import Ember.Source.Path

/-!
# Disks

A disk is a finite map from places to contents. Directories are not stored: one is there if a file lies below it. Paths are
resolved part by part, from the working directory or from the root. Where the working directory lies below the root is not
known, so a place is counted from the root, from the working directory, or from a directory above that one.
-/

namespace Ember

/-- The contents of a file. -/
inductive Content where
  | text (s : String)
  | bytes (raw : List UInt8)
  /-- What a C compiler makes of a text. -/
  | object (source : String)
deriving DecidableEq

/-- The text of contents, if they are text. -/
def Content.text? : Content → Option String
  | .text s => some s
  | .bytes raw => String.fromUTF8? raw.toByteArray
  | .object _ => none

/-- Where a place is counted from. -/
inductive Base where
  | working
  /-- The directory so many levels above the one that holds the working directory. -/
  | above (levels : Nat)
  | root
deriving DecidableEq, Repr

/-- A place: the names that lead to it from its base. -/
structure Place where
  base : Base := .working
  names : List String
deriving DecidableEq, Repr

namespace Place

/-- The place of a name in a directory. -/
def child (dir : Place) (name : String) : Place :=
  { dir with names := dir.names ++ [name] }

/-- The directory that holds a directory; the root holds itself. -/
def parent (dir : Place) : Place :=
  match dir.names, dir.base with
  | _ :: _, _ => { dir with names := dir.names.dropLast }
  | [], .working => ⟨.above 0, []⟩
  | [], .above levels => ⟨.above (levels + 1), []⟩
  | [], .root => dir

/-- Whether a place lies inside of a directory. -/
def isBelow (place dir : Place) : Bool :=
  place.base == dir.base && dir.names.isPrefixOf place.names && place.names.length != dir.names.length

/-- The directories that every system has below its root. -/
def systemNames : List String :=
  ["bin", "boot", "dev", "etc", "home", "lib", "media", "mnt", "opt", "proc", "root", "run", "sbin", "srv", "sys", "tmp",
    "usr", "var"]

/-- Whether a directory is at a place on every disk. -/
def isStanding (place : Place) : Bool :=
  match place.names with
  | [] => true
  | [name] => place.base == .root && systemNames.contains name
  | _ => false

end Place

/-- Files by their places. -/
structure Disk where
  files : List (Place × Content) := []

namespace Disk

/-- The contents of the file at a place. -/
def file? (d : Disk) (place : Place) : Option Content :=
  d.files.lookup place

/-- Whether a directory is at a place. -/
def isDirectory (d : Disk) (place : Place) : Bool :=
  place.isStanding || d.files.any fun (file, _) => file.isBelow place

/-- Puts a file at a place. -/
def put (d : Disk) (place : Place) (c : Content) : Disk :=
  if (d.file? place).isSome then
    { files := d.files.map fun (file, old) => (file, if file = place then c else old) }
  else { files := d.files ++ [(place, c)] }

/-- What is at the end of a path. -/
inductive Entry where
  | directory
  | file (place : Place)
  /-- Nothing, in a directory that is there. -/
  | free (place : Place)

/-- The largest size of a name, in bytes. -/
def nameLimit : Nat := 255

/-- The largest size of a path, in bytes. -/
def pathLimit : Nat := 4095

/-- Follows the parts of a path from a directory. A name with a slash behind it must be that of a directory, and cannot be
the name of a file to be written, whether it is there or not. -/
def walk (d : Disk) (writing : Bool) (dir : Place) : List String → Except AccessFailure Entry
  | [] => .ok .directory
  | part :: rest =>
    if Path.isIdle part then walk d writing dir rest
    else if part = ".." then walk d writing dir.parent rest
    else if writing && !rest.isEmpty && rest.all (· == "") then .error .isDirectory
    else if nameLimit < part.utf8ByteSize then .error .nameTooLong
    else if d.isDirectory (dir.child part) then walk d writing (dir.child part) rest
    else
      match d.file? (dir.child part), rest with
      | some _, [] => .ok (.file (dir.child part))
      | some _, _ :: _ => .error .notDirectory
      | none, [] => .ok (.free (dir.child part))
      | none, _ :: _ => .error .notFound

/-- What is at the end of a path. An empty path leads nowhere, and one that begins with a slash starts at the root. -/
def locate (d : Disk) (writing : Bool) (path : String) : Except AccessFailure Entry :=
  if path.toList.any (·.toNat = 0) then .error .nulInName
  else if pathLimit < path.utf8ByteSize then .error .nameTooLong
  else
    match Path.parts path with
    | [""] => .error .notFound
    | "" :: parts => d.walk writing ⟨.root, []⟩ parts
    | parts => d.walk writing ⟨.working, []⟩ parts

/-- Reads the text of a file. -/
def read (d : Disk) (path : String) : Except AccessFailure String := do
  match ← d.locate false path with
  | .directory => throw .isDirectory
  | .free _ => throw .notFound
  | .file place =>
    match (d.file? place).bind (·.text?) with
    | some s => return s
    | none => throw .notText

/-- Writes a file, in a directory that must be there. -/
def write (d : Disk) (path : String) (c : Content) : Except AccessFailure Disk := do
  match ← d.locate true path with
  | .directory => throw .isDirectory
  | .file place => return d.put place c
  | .free place => return d.put place c

end Disk

end Ember
