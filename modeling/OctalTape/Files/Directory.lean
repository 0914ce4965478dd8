set_option relaxedAutoImplicit false
set_option autoImplicit false

/-!
# Reading files

A file is named by a path, and a path leads through directories name by name. The working
directory may be one on disk or one that is held in memory; either way a file that cannot be
read is missing, is no file, lies below something that is no directory, or holds no text.

## Main definitions

* `OctalTape.Files.ReadFault` — why a file cannot be read, and the words for it.
* `OctalTape.Files.Directory` — a working directory in memory.
* `OctalTape.Files.Directory.read` — the content of the file at a path.
* `OctalTape.Files.decode` — the text that a content encodes.

## Implementation notes

A path is followed step by step, as the names stand in it: an empty name and a single dot stay
where they are, two dots lead to the directory around. Only a directory has places below it, so
a file followed by anything, be it an empty name, is a fault. A directory in memory knows
nothing of what lies outside of it, and so nothing is found there.
-/

namespace OctalTape.Files

/-! ## Faults -/

/-- Why a file cannot be read. -/
inductive ReadFault where
  /-- There is nothing at the path. -/
  | notFound
  /-- The path leads through something that is no directory. -/
  | notADirectory
  /-- There is a directory at the path. -/
  | isADirectory
  /-- The content is not the encoding of a text. -/
  | notText
  /-- The system gives another reason. -/
  | other (reason : String)
  deriving DecidableEq, Repr

/-- The words for a fault; where the system has a number for it, they end with that number. -/
def ReadFault.message : ReadFault → String
  | notFound => "No such file or directory (os error 2)"
  | notADirectory => "Not a directory (os error 20)"
  | isADirectory => "Is a directory (os error 21)"
  | notText => "stream did not contain valid UTF-8"
  | other reason => reason

/-! ## Texts -/

/-- The text that a content encodes. -/
def decode (content : ByteArray) : Except ReadFault String :=
  match String.fromUTF8? content with
  | some text => .ok text
  | none => .error .notText

/-! ## Directories in memory -/

/-- What a name in a working directory stands for. -/
inductive Entry where
  | file (content : ByteArray)
  /-- A directory without entries of its own. -/
  | folder

/-- A working directory: its entries by their names. -/
structure Directory where
  entries : List (String × Entry) := []

/-- The places to which a path can lead. -/
inductive Place where
  /-- The working directory itself. -/
  | here
  /-- A directory in the working directory. -/
  | inside
  /-- A directory around the working directory. -/
  | outside
  | file (content : ByteArray)

namespace Directory

/-- The place to which a name leads from another place. -/
def follow (d : Directory) (place : Place) (name : String) : Except ReadFault Place :=
  match place with
  | .file _ => .error .notADirectory
  | .here =>
    if name = "" ∨ name = "." then .ok .here
    else if name = ".." then .ok .outside
    else
      match d.entries.lookup name with
      | some (.file content) => .ok (.file content)
      | some .folder => .ok .inside
      | none => .error .notFound
  | .inside =>
    if name = "" ∨ name = "." then .ok .inside
    else if name = ".." then .ok .here
    else .error .notFound
  | .outside =>
    if name = "" ∨ name = "." ∨ name = ".." then .ok .outside else .error .notFound

/-- The place to which a path leads. A path that begins with a slash does not begin in the
working directory. -/
def resolve (d : Directory) (path : String) : Except ReadFault Place :=
  match path.toList with
  | [] => .error .notFound
  | '/' :: rest => ((rest.splitOn '/').map String.ofList).foldlM d.follow .outside
  | cs => ((cs.splitOn '/').map String.ofList).foldlM d.follow .here

/-- The content of the file at a path. -/
def read (d : Directory) (path : String) : Except ReadFault ByteArray := do
  match ← d.resolve path with
  | .file content => return content
  | _ => .error .isADirectory

end Directory

end OctalTape.Files
