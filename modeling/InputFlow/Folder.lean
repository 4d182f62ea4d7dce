namespace InputFlow

inductive FileProblem where
  | missing
  | isDirectory
  | notDirectory
  | denied
  | nameTooLong
  | hasNul
  | notText
  | other (reason : String)
deriving DecidableEq, Repr

/-- The system's words for a problem, with the number it gives it if it has one. -/
def FileProblem.message : FileProblem → String
  | missing => "No such file or directory (os error 2)"
  | isDirectory => "Is a directory (os error 21)"
  | notDirectory => "Not a directory (os error 20)"
  | denied => "Permission denied (os error 13)"
  | nameTooLong => "File name too long (os error 36)"
  | hasNul => "file name contained an unexpected NUL byte"
  | notText => "stream did not contain valid UTF-8"
  | other reason => reason

/-- A folder that holds files by name and no other folders. Nothing is known of what lies outside. -/
structure Folder where
  files : List (String × String) := []

namespace Folder

inductive Place where
  | inside
  | outside
  | file (text : String)
deriving DecidableEq, Repr

def maxName : Nat := 255

def maxPath : Nat := 4095

/-- Goes one part of a path further. An empty part and a dot stay in a folder, and nothing lies
behind a file. -/
def step (folder : Folder) (part : String) : Place → Except FileProblem Place
  | .file _ => .error .notDirectory
  | place =>
    if part = "" ∨ part = "." then .ok place
    else if part = ".." then .ok .outside
    else if maxName < part.utf8ByteSize then .error .nameTooLong
    else
      match place, folder.files.lookup part with
      | .inside, some text => .ok (.file text)
      | _, _ => .error .missing

/-- Where a path leads; a path that starts with a slash starts outside. -/
def follow (folder : Folder) (path : String) : Except FileProblem Place :=
  if path.toList.contains '\x00' then .error .hasNul
  else if maxPath < path.utf8ByteSize then .error .nameTooLong
  else if path.isEmpty then .error .missing
  else
    let start := if path.toList.head? = some '/' then Place.outside else .inside
    (path.splitOn "/").foldlM (fun place part => folder.step part place) start

def read (folder : Folder) (path : String) : Except FileProblem String := do
  match ← folder.follow path with
  | .file text => return text
  | _ => throw .isDirectory

end Folder

end InputFlow
