import Solo.Source.Basic

/-! Files in directories, and how a path leads to one. Of what lies above the directory in which
paths start nothing is known but that it is a directory. -/

namespace Solo

/-- The files and directories below one directory, by the names that lead there. -/
structure FileTree where
  directories : List (List String)
  files : List (List String × ByteArray)

namespace FileTree

/-- Where a path has led so far. -/
inductive Place where
  | directory (names : List String)
  | above
  | file (bytes : ByteArray)

def file? (t : FileTree) (names : List String) : Option ByteArray := t.files.lookup names

/-- A directory that holds something exists, whether it is listed or not. -/
def isDirectory (t : FileTree) (names : List String) : Bool :=
  (t.directories ++ t.files.map fun f => f.1.dropLast).any (names.isPrefixOf ·)

/-- Follows one part of a path. -/
def enter (t : FileTree) : Place → String → Except ReadError Place
  | .file _, _ => .error .notDirectory
  | place, "" | place, "." => .ok place
  | .above, ".." | .directory [], ".." => .ok .above
  | .directory names, ".." => .ok (.directory names.dropLast)
  | .above, _ => .error .notFound
  | .directory names, name =>
    let names := names ++ [name]
    match t.file? names with
    | some bytes => .ok (.file bytes)
    | none => if t.isDirectory names then .ok (.directory names) else .error .notFound

/-- Where the parts of `path` lead, one after the other. -/
def resolve (t : FileTree) (path : String) : Except ReadError Place :=
  match path.splitOn "/" with
  | [""] => .error .notFound
  | "" :: parts => parts.foldlM t.enter .above
  | parts => parts.foldlM t.enter (.directory [])

def read (t : FileTree) (path : String) : Except ReadError String := do
  match ← t.resolve path with
  | .file bytes => sourceText bytes
  | _ => .error .isDirectory

def loadSource (t : FileTree) (path : String) : Except SourceError String :=
  (t.read path).mapError fun cause => ⟨path, cause⟩

end FileTree

end Solo
