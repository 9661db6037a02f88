import GuardedC.Path

/-!
# Files

What a path leads to. The tool looks at files through a function from paths to entries, a `Disk`. A
disk may show the files of the machine, or those of a `FileTree`, which is a directory held in
memory.
-/

namespace GuardedC

/-- What is found at a path. -/
inductive Entry where
  | missing
  /-- The path goes on after a file. -/
  | throughFile
  /-- Something that is there and cannot be read. -/
  | unreadable (reason : String)
  | directory
  | file (content : ByteArray)

abbrev Disk := String → Entry

namespace Entry

def exists? : Entry → Bool
  | directory | file _ | unreadable _ => true
  | _ => false

def isFile : Entry → Bool
  | file _ => true
  | _ => false

/-- The text of a file, or why it cannot be had. -/
def read : Entry → Except String String
  | missing => .error "No such file or directory (os error 2)"
  | throughFile => .error "Not a directory (os error 20)"
  | unreadable reason => .error reason
  | directory => .error "Is a directory (os error 21)"
  | file content =>
    match String.fromUTF8? content with
    | some text => .ok text
    | none => .error "stream did not contain valid UTF-8"

end Entry

/-! ## Directories in memory -/

/-- A directory, by the paths of its files and of the directories in it. Directories on the way to
these need not be listed. -/
structure FileTree where
  directories : List (List String)
  files : List (List String × ByteArray)

namespace FileTree

/-- What is found at a list of names. -/
def entryAt (t : FileTree) (names : List String) : Entry :=
  match t.files.lookup names with
  | some content => .file content
  | none =>
    if (t.directories ++ t.files.map (·.1)).any names.isPrefixOf || names.isEmpty then .directory
    else .missing

/-- Follows segments from a directory. -/
def follow (t : FileTree) (here : List String) : List String → Entry
  | [] => t.entryAt here
  | segment :: rest =>
    match t.entryAt here with
    | .directory => t.follow (Path.step here segment) rest
    | .file _ => .throughFile
    | other => other

/-- The tree as seen from one of its directories. -/
def disk (t : FileTree) (workingDirectory : List String) : Disk := fun path =>
  if path.isEmpty then .missing
  else if Path.isAbsolute path then t.follow [] (path.splitOn "/")
  else t.follow workingDirectory (path.splitOn "/")

end FileTree

end GuardedC
