-- SUMMARY: File names, and the files and folders of a disk.
import PolicyAudit.Keyed
import PolicyAudit.Text.Split

/-! ## File names

A name that starts with a slash is read from the top of the disk, and any other from the current
folder. -/

namespace PolicyAudit.FileName

/-- Whether a name starts at the top of the disk. -/
def isAbsolute (name : String) : Bool := name.toList.head? == some '/'

/-- A name as seen from a folder. -/
def within (folder name : String) : String :=
  if isAbsolute name ∨ folder = "" then name
  else if folder.toList.getLast? = some '/' then folder ++ name
  else folder ++ "/" ++ name

/-- What stands after the last point of the last part of a name, unless that part starts with it. -/
def extension? (part : String) : Option String :=
  match (Text.pieces '.' part.toList).reverse with
  | last :: stem :: rest => if stem = [] ∧ rest = [] then none else some (String.ofList last)
  | _ => none

end PolicyAudit.FileName

/-! ## Files and folders -/

namespace PolicyAudit

/-- A file or a folder. -/
inductive DiskNode where
  | file (content : ByteArray)
  | folder (entries : List (String × DiskNode))

/-- The names that lead from the top of a disk to a file or folder. -/
abbrev Place : Type := List String

namespace DiskNode

instance : Inhabited DiskNode := ⟨.folder []⟩

/-- The entries of a folder. -/
def entries : DiskNode → Keyed DiskNode
  | .file _ => []
  | .folder entries => entries

def isFile : DiskNode → Bool
  | .file _ => true
  | .folder _ => false

def isFolder (node : DiskNode) : Bool := !node.isFile

/-- What stands at a place below. -/
def at? (node : DiskNode) : Place → Option DiskNode
  | [] => some node
  | name :: place => (Keyed.find? name node.entries).bind (·.at? place)

/-- Puts something at a place below, in folders that are made where they are missing. -/
def put (new : DiskNode) : Place → DiskNode → DiskNode
  | [], _ => new
  | name :: place, node =>
    let below := (Keyed.find? name node.entries).getD default
    .folder (Keyed.insert name (put new place below) node.entries)

mutual

/-- The places of the files below, in the order of their names. -/
def files : DiskNode → List Place
  | .file _ => [[]]
  | .folder entries => filesOf entries

/-- The places of the files below some entries. -/
def filesOf : List (String × DiskNode) → List Place
  | [] => []
  | (name, node) :: rest => node.files.map (name :: ·) ++ filesOf rest

end

end DiskNode

/-! ## Disks -/

/-- A disk and a current folder on it. -/
structure Disk where
  root : DiskNode
  here : Place

/-- Why a file cannot be read. -/
inductive ReadFault where
  | missing
  | isFolder
  | notText
deriving DecidableEq, Repr

/-- The message for a fault. -/
def ReadFault.message : ReadFault → String
  | missing => "No such file or directory (os error 2)"
  | isFolder => "Is a directory (os error 21)"
  | notText => "stream did not contain valid UTF-8"

namespace Disk

/-- One step along a name. Every step starts in a folder. -/
def step? (disk : Disk) (place : Place) (part : String) : Option Place :=
  if (disk.root.at? place).any DiskNode.isFolder then
    if part = "" ∨ part = "." then some place
    else if part = ".." then some place.dropLast
    else if (disk.root.at? (place ++ [part])).isSome then some (place ++ [part])
    else none
  else none

/-- The place of an existing file or folder. -/
def place? (disk : Disk) (name : String) : Option Place :=
  if name = "" then none
  else (Text.split '/' name).foldlM disk.step? (if FileName.isAbsolute name then [] else disk.here)

/-- The file or folder with a name. -/
def find? (disk : Disk) (name : String) : Option DiskNode :=
  (disk.place? name).bind disk.root.at?

/-- Whether a name leads to a file. -/
def isFile (disk : Disk) (name : String) : Bool := (disk.find? name).any DiskNode.isFile

/-- Whether a name leads to a folder. -/
def isFolder (disk : Disk) (name : String) : Bool := (disk.find? name).any DiskNode.isFolder

/-- The text of a file. -/
def read (disk : Disk) (name : String) : Except ReadFault String :=
  match disk.find? name with
  | none => .error .missing
  | some (.folder _) => .error .isFolder
  | some (.file content) =>
    match String.fromUTF8? content with
    | some text => .ok text
    | none => .error .notText

/-- Writes the text of a file that exists. -/
def write (disk : Disk) (name text : String) : Disk :=
  match disk.place? name with
  | some place => { disk with root := DiskNode.put (.file text.toUTF8) place disk.root }
  | none => disk

/-- The names of the files below a folder, in the order of their places. -/
def filesBelow (disk : Disk) (folder : String) : List (Place × String) :=
  match disk.find? folder with
  | some node => node.files.map fun place => (place, place.foldl FileName.within folder)
  | none => []

/-- The name of a place. -/
def nameOf (place : Place) : String := place.foldl FileName.within "/"

/-- The current folder and the folders around it, from the inside out. -/
def around (disk : Disk) : List Place :=
  (List.range (disk.here.length + 1)).reverse.map disk.here.take

end Disk

end PolicyAudit
