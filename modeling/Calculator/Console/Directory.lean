/-!
Files as a run sees them: why one cannot be read, and a directory of text files held in memory in
which paths are followed name by name.
-/

namespace Calculator

inductive FileError where
  | notFound
  | permissionDenied
  | notDirectory
  | isDirectory
  | nameTooLong
  | notText
  | other (reason : String)
deriving DecidableEq, Repr

/-- The reason in the system's words. -/
def FileError.message : FileError → String
  | notFound => "No such file or directory (os error 2)"
  | permissionDenied => "Permission denied (os error 13)"
  | notDirectory => "Not a directory (os error 20)"
  | isDirectory => "Is a directory (os error 21)"
  | nameTooLong => "File name too long (os error 36)"
  | notText => "stream did not contain valid UTF-8"
  | other reason => reason

/-- Files with their paths, which are the names on the way to them. Directories are the beginnings
of these paths. -/
structure Directory where
  files : List (List String × String)
deriving DecidableEq, Repr

namespace Directory

/-- A place that a path leads to: the names on the way from the directory, or somewhere outside of
it, where nothing is known but the directories above. -/
inductive Place where
  | inside (names : List String)
  | outside
deriving DecidableEq, Repr

def nameLimit : Nat := 255

def pathLimit : Nat := 4095

def ofNames (files : List (String × String)) : Directory :=
  ⟨files.map fun (name, contents) => (name.splitOn "/", contents)⟩

def contents? (directory : Directory) (names : List String) : Option String :=
  directory.files.lookup names

def isDirectory (directory : Directory) (names : List String) : Bool :=
  names = [] || directory.files.any fun (path, _) => names.isPrefixOf path && names != path

/-- One name further from a place. -/
def step (directory : Directory) (place : Place) (name : String) : Except FileError Place :=
  match place with
  | .outside =>
    if name = "" ∨ name = "." ∨ name = ".." then .ok .outside else .error .notFound
  | .inside names =>
    if !directory.isDirectory names then .error .notDirectory
    else if name = "" ∨ name = "." then .ok place
    else if name = ".." then .ok (if names = [] then .outside else .inside names.dropLast)
    else if nameLimit < name.utf8ByteSize then .error .nameTooLong
    else
      let further := names ++ [name]
      if (directory.contents? further).isSome || directory.isDirectory further then
        .ok (.inside further)
      else .error .notFound

def read (directory : Directory) (path : String) : Except FileError String := do
  if path = "" then .error .notFound
  else if pathLimit < path.utf8ByteSize then .error .nameTooLong
  else
    let start := if path.startsWith "/" then Place.outside else Place.inside []
    match ← (path.splitOn "/").foldlM directory.step start with
    | .outside => .error .isDirectory
    | .inside names =>
      match directory.contents? names with
      | some contents => .ok contents
      | none => .error .isDirectory

end Directory
end Calculator
