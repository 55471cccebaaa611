/-! Source files: what they hold, and why one cannot be read. -/

namespace Solo

inductive ReadError where
  | notFound
  | isDirectory
  | notDirectory
  | notText
  /-- Any other trouble, in the words of the system. -/
  | other (text : String)
  deriving DecidableEq, Repr

def ReadError.message : ReadError → String
  | .notFound => "No such file or directory (os error 2)"
  | .isDirectory => "Is a directory (os error 21)"
  | .notDirectory => "Not a directory (os error 20)"
  | .notText => "stream did not contain valid UTF-8"
  | .other text => text

structure SourceError where
  path : String
  cause : ReadError
  deriving DecidableEq, Repr

def SourceError.message (e : SourceError) : String :=
  match e.cause with
  | .notFound => "source file not found: " ++ e.path
  | _ => "cannot read source file " ++ e.path

/-- The text that a file's bytes are. -/
def sourceText (bytes : ByteArray) : Except ReadError String :=
  match String.fromUTF8? bytes with
  | some text => .ok text
  | none => .error .notText

end Solo
