/-! The files that a command sees from the directory it runs in. Directories are the proper
beginnings of the files' paths and all directories above; commands make none. -/
namespace LedgerSigning

/-- Why a file cannot be read or written, or its mode cannot be set. -/
inductive FileError where
  | notPermitted
  | missing
  | denied
  | notDirectory
  | isDirectory
  | nameTooLong
  | badName
  | notText
  | other (text : String)
deriving DecidableEq

namespace FileError

def message : FileError → String
  | notPermitted => "Operation not permitted (os error 1)"
  | missing => "No such file or directory (os error 2)"
  | denied => "Permission denied (os error 13)"
  | notDirectory => "Not a directory (os error 20)"
  | isDirectory => "Is a directory (os error 21)"
  | nameTooLong => "File name too long (os error 36)"
  | badName => "file name contained an unexpected NUL byte"
  | notText => "stream did not contain valid UTF-8"
  | other text => text

end FileError

namespace Path

/-- The parts of a path between its slashes. -/
def parts : List Char → List (List Char)
  | [] => [[]]
  | c :: rest =>
    match parts rest with
    | [] => [[c]]
    | first :: others => if c = '/' then [] :: first :: others else (c :: first) :: others

/-- The names on a path. The first one is a slash if the path starts at the root. -/
def names (path : List Char) : List String :=
  (if path.head? = some '/' then ["/"] else []) ++
    ((parts path).filter (· ≠ [])).map String.ofList

/-- Goes on to a name from the place that the names before it lead to. Places have no `.` in
them, and `..` at their front only. -/
def step (place : List String) (name : String) : List String :=
  if name = "/" then ["/"]
  else if name = "." then place
  else if name = ".." then
    if place = ["/"] then place
    else if place.all (· = "..") then ".." :: place
    else place.dropLast
  else place ++ [name]

/-- The root, the directory that paths start from, and those above it. -/
def isAbove (place : List String) : Bool := place = ["/"] || place.all (· = "..")

/-- One path after another, with one slash between them. -/
def join (base name : String) : String :=
  if base.isEmpty ∨ base.endsWith "/" then base ++ name else base ++ "/" ++ name

end Path

/-- A table of places, of which the first entry for a place counts. -/
abbrev Placed (α : Type) := List (List String × α)

namespace Placed

variable {α : Type}

def get? (table : Placed α) (place : List String) : Option α :=
  (table.find? (·.1 = place)).map (·.2)

/-- The table with a new entry for a place instead of those that were there. -/
def set (table : Placed α) (place : List String) (value : α) : Placed α :=
  table.filter (·.1 ≠ place) ++ [(place, value)]

end Placed

/-- The contents of files, the modes that were set, and why the system lets no mode be set at some
places: the file there belongs to someone else, or has a mode that is fixed. -/
structure Files where
  entries : Placed (List UInt8)
  modes : Placed Nat
  locked : Placed FileError
deriving DecidableEq

namespace Files

/-- What stands at a place. -/
inductive Node where
  | file
  | directory
  | nothing
deriving DecidableEq

def node (files : Files) (place : List String) : Node :=
  if files.entries.any (·.1 = place) then .file
  else if Path.isAbove place ∨ files.entries.any (place.isPrefixOf ·.1) then .directory
  else .nothing

/-- The place of a name in a directory. A name has at most 255 bytes. -/
def lookup (place : List String) (name : String) : Except FileError (List String) :=
  if 255 < name.utf8ByteSize then .error .nameTooLong else .ok (Path.step place name)

/-- Follows names, all of which must lead to directories. -/
def follow (files : Files) : List String → List String → Except FileError (List String)
  | place, [] => .ok place
  | place, name :: rest => do
    let place ← lookup place name
    match files.node place with
    | .directory => follow files place rest
    | .file => .error .notDirectory
    | .nothing => .error .missing

/-- A path split at its last name. -/
structure Target where
  parent : List String
  name : String
  /-- Whether a slash follows the name. -/
  slashed : Bool

/-- Finds the directory that the last name of a path stands in. -/
def locate (files : Files) (path : String) : Except FileError Target :=
  let chars := path.toList
  if chars.contains '\x00' then .error .badName
  else if 4095 < path.utf8ByteSize then .error .nameTooLong
  else
    let names := Path.names chars
    match names.getLast? with
    | none => .error .missing
    | some name => do
      let parent ← files.follow [] names.dropLast
      .ok ⟨parent, name, chars.getLast? = some '/'⟩

/-- What a path leads to. -/
structure Found where
  place : List String
  isDirectory : Bool

/-- Finds what stands where a path leads. Only the path of a directory may end in a slash. -/
def find (files : Files) (path : String) : Except FileError Found := do
  let target ← files.locate path
  let place ← lookup target.parent target.name
  match files.node place with
  | .nothing => .error .missing
  | .directory => .ok ⟨place, true⟩
  | .file => if target.slashed then .error .notDirectory else .ok ⟨place, false⟩

def read (files : Files) (path : String) : Except FileError (List UInt8) := do
  let found ← files.find path
  if found.isDirectory then .error .isDirectory
  else match files.entries.get? found.place with
    | some bytes => .ok bytes
    | none => .error .missing

/-- Whether a file stands where a path leads. -/
def isFile (files : Files) (path : String) : Bool :=
  match files.find path with
  | .ok found => !found.isDirectory
  | .error _ => false

/-- The files with one more, in place of the one that was there. -/
def put (files : Files) (place : List String) (bytes : List UInt8) : Files :=
  { files with entries := files.entries.set place bytes }

/-- The files after writing one, or why nothing was written. A path with a slash at its end
cannot become a file. -/
def write (files : Files) (path : String) (bytes : List UInt8) : Except FileError Files := do
  let target ← files.locate path
  if target.slashed then .error .isDirectory
  else do
    let place ← lookup target.parent target.name
    match files.node place with
    | .directory => .error .isDirectory
    | _ => .ok (files.put place bytes)

/-- Whether the system lets a mode be set at a place. -/
def unlocked (files : Files) (place : List String) : Except FileError Unit :=
  match files.locked.get? place with
  | some cause => .error cause
  | none => .ok ()

def putMode (files : Files) (place : List String) (mode : Nat) : Files :=
  { files with modes := files.modes.set place mode }

/-- The files after the mode of one is set, or why it is not set. -/
def setMode (files : Files) (path : String) (mode : Nat) : Except FileError Files := do
  let found ← files.find path
  files.unlocked found.place
  .ok (files.putMode found.place mode)

/-- The files of a list of paths and contents; later contents replace earlier ones. -/
def ofList (contents : List (String × List UInt8)) : Files :=
  contents.foldl (fun files (path, bytes) => files.put (Path.names path.toList) bytes) ⟨[], [], []⟩

end Files

end LedgerSigning
