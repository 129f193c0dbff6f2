import CrashCourier.Files.Path
import CrashCourier.Text.Utf8

/-!
# Directories and files

A disk is a list of places with what stands there. A place is the list of names that lead to it
from the root. Every operation follows its path name by name, as far as there are directories, and
either gives a fault and changes nothing or has its effect.

Left out are names that are no UTF-8, since a name is a text here, and symbolic links: all that
stands at a place is a directory or a file.
-/

namespace CrashCourier.Files

/-- A place: the names that lead to it from the root. -/
abbrev Place := List String

/-- What stands at a place. -/
inductive Entry where
  | directory
  | file (content : Bytes)
  deriving DecidableEq

/-- Directories and files, and the directory in which relative paths begin. -/
structure Disk where
  entries : List (Place × Entry)
  working : Place

/-- Why an operation on files fails. -/
inductive Fault where
  /-- There is nothing at the place. -/
  | notFound
  /-- There is something at the place already. -/
  | exists
  /-- A file stands where a directory is needed. -/
  | notDirectory
  /-- A directory stands where a file is needed. -/
  | isDirectory
  /-- A name, or the whole path, is too long. -/
  | nameTooLong
  /-- The path holds a NUL. -/
  | holdsNul
  deriving DecidableEq

def Fault.message : Fault → String
  | notFound => "No such file or directory (os error 2)"
  | «exists» => "File exists (os error 17)"
  | notDirectory => "Not a directory (os error 20)"
  | isDirectory => "Is a directory (os error 21)"
  | nameTooLong => "File name too long (os error 36)"
  | holdsNul => "file name contained an unexpected NUL byte"

namespace Disk

/-- What stands at a place. The root is a directory. -/
def get? (disk : Disk) (place : Place) : Option Entry :=
  if place = [] then some .directory else disk.entries.lookup place

/-- The disk with a place's entry set. -/
def set (disk : Disk) (place : Place) (entry : Entry) : Disk :=
  { disk with entries := (place, entry) :: disk.entries.filter (·.1 ≠ place) }

def erase (disk : Disk) (place : Place) : Disk :=
  { disk with entries := disk.entries.filter (·.1 ≠ place) }

/-- How many octets a name may have. -/
def greatestName : Nat := 255

/-- How many octets a path may have. -/
def greatestPath : Nat := 4095

/-- Follows names from a place. Every place but the last has to be a directory. -/
def follow (disk : Disk) : Place → List String → Except Fault Place
  | place, [] => pure place
  | place, name :: rest =>
    match disk.get? place with
    | none => throw .notFound
    | some (.file _) => throw .notDirectory
    | some .directory =>
      if name = ".." then follow disk place.dropLast rest
      else if greatestName < name.utf8ByteSize then throw .nameTooLong
      else follow disk (place ++ [name]) rest

/-- The place that a path leads to, whether there is something or not. -/
def locatePath (disk : Disk) (path : Path) : Except Fault Place :=
  disk.follow (if path.absolute then [] else disk.working) path.names

/-- The place that the text of a path leads to, whether there is something or not. -/
def locate (disk : Disk) (text : String) : Except Fault Place :=
  if text.toList.contains '\x00' then throw .holdsNul
  else if greatestPath < text.utf8ByteSize then throw .nameTooLong
  else if text = "" then throw .notFound
  else disk.locatePath (.ofText text)

/-! ## Directories -/

/-- Makes one directory, unless it is there. -/
def ensureDirectory (disk : Disk) (path : Path) : Except Fault Disk := do
  let place ← disk.locatePath path
  match disk.get? place with
  | some .directory => pure disk
  | some (.file _) => throw .exists
  | none => pure (disk.set place .directory)

/-- Makes directories one after the other, up to the first that fails. -/
def ensureEach (disk : Disk) : List Path → Except Fault Unit × Disk
  | [] => (pure (), disk)
  | path :: rest =>
    match disk.ensureDirectory path with
    | .error fault => (throw fault, disk)
    | .ok disk => disk.ensureEach rest

/-- Makes the directory that a path leads to. If some on the way are missing they are made before
it, from the shortest path up, and stay even if a later one fails. -/
def makeDirectories (disk : Disk) (text : String) : Except Fault Unit × Disk :=
  let path := Path.ofText text
  if text = "" then (pure (), disk)
  else
    match disk.locate text with
    | .ok _ => disk.ensureEach [path]
    | .error .notFound =>
      disk.ensureEach ((List.range (path.names.length + 1)).map fun n =>
        { path with names := path.names.take n })
    | .error fault => (throw fault, disk)

/-- The names in a directory. -/
def list (disk : Disk) (text : String) : Except Fault (List String) := do
  let place ← disk.locate text
  match disk.get? place with
  | none => throw .notFound
  | some (.file _) => throw .notDirectory
  | some .directory =>
    pure (disk.entries.filterMap fun (there, _) =>
      if there.dropLast = place then there.getLast? else none)

/-- Removes a directory and all that is in it. -/
def removeTree (disk : Disk) (text : String) : Except Fault Disk := do
  let place ← disk.locate text
  match disk.get? place with
  | none => throw .notFound
  | some (.file _) => throw .notDirectory
  | some .directory =>
    pure { disk with entries := disk.entries.filter fun (there, _) => !place.isPrefixOf there }

/-- The paths of all that stands below the working directory, ascending. A directory's path ends
with a slash. -/
def tree (disk : Disk) : List String :=
  (disk.entries.filterMap fun (place, entry) =>
    match disk.working.isPrefixOf? place with
    | none | some [] => none
    | some names =>
      some ("/".intercalate names ++ if entry = .directory then "/" else "")).mergeSort
    fun a b => decide (a ≤ b)

/-! ## Files -/

/-- The content of a file. -/
def read (disk : Disk) (text : String) : Except Fault Bytes := do
  let place ← disk.locate text
  match disk.get? place with
  | none => throw .notFound
  | some .directory => throw .isDirectory
  | some (.file content) => if saysDirectory text then throw .notDirectory else pure content

/-- Writes a file, in place of any that is there. -/
def write (disk : Disk) (text : String) (content : Bytes) : Except Fault Disk := do
  let place ← disk.locate text
  if disk.get? place = some .directory ∨ saysDirectory text then throw .isDirectory
  else pure (disk.set place (.file content))

/-- Writes a file; the directories on the way to it are made before. -/
def deposit (disk : Disk) (text : String) (content : Bytes) : Except Fault Unit × Disk :=
  match disk.makeDirectories (((Path.ofText text).parent?.map Path.text).getD "") with
  | (.error fault, disk) => (throw fault, disk)
  | (.ok (), disk) =>
    match disk.write text content with
    | .error fault => (throw fault, disk)
    | .ok disk => (pure (), disk)

/-- Removes a file. -/
def remove (disk : Disk) (text : String) : Except Fault Disk := do
  let place ← disk.locate text
  match disk.get? place with
  | none => throw .notFound
  | some .directory => throw .isDirectory
  | some (.file _) => if saysDirectory text then throw .notDirectory else pure (disk.erase place)

end Disk

end CrashCourier.Files
