import Solo.SymbolTable
import Solo.Text.Numeral
import Solo.Text.Position
import Solo.Token.Basic

/-! Reading tokens off a text. A scanner holds what is still unread; `next` skips blanks and takes
the longest token that the rest begins with. Where no token begins it reports an error, and the
characters that it looked at are gone all the same, so that reading can go on behind them. -/

namespace Solo

inductive ScanError where
  | loneBang
  | unexpected (c : Char)
  | outOfRange (digits : String)
  deriving DecidableEq, Repr

def ScanError.message : ScanError → String
  | .loneBang => "expected '=' after '!'"
  | .unexpected c => "unexpected character '" ++ c.toString ++ "'"
  | .outOfRange digits => "number " ++ digits ++ " is out of range"

structure Scanner where
  /-- What has not been read. -/
  rest : List Char
  /-- The place of the first character of `rest`. -/
  pos : Position := {}
  /-- The names read so far. -/
  symbols : SymbolTable := .empty

/-- What one reading gives: where it started, and a token or why there is none. -/
structure Reading where
  pos : Position
  token : Except ScanError Token

namespace Scanner

def ofSource (source : String) : Scanner := { rest := source.toList }

def isBlank (c : Char) : Bool := c = ' ' || c = '\t' || c = '\n' || c = '\x0c' || c = '\r'

def isWordStart (c : Char) : Bool := c.isAlpha || c = '_'

def isWordPart (c : Char) : Bool := c.isAlphanum || c = '_'

/-- Moves past the first `n` characters, or past all if there are fewer. -/
def skip (s : Scanner) (n : Nat) : Scanner :=
  { s with rest := s.rest.drop n, pos := s.pos.afterAll (s.rest.take n) }

def skipBlanks (s : Scanner) : Scanner := s.skip (s.rest.takeWhile isBlank).length

/-- A keyword if `word` is one; else a name, which gets a slot. -/
def word (s : Scanner) (word : String) : Token × Scanner :=
  match Keyword.ofWord? word with
  | some k => (.keyword k, s)
  | none =>
    let (slot, symbols) := s.symbols.intern word
    (.ident word slot, { s with symbols })

/-- The token that the unread text begins with, when no blank comes first. -/
def token (s : Scanner) : Except ScanError Token × Scanner :=
  match s.rest with
  | [] => (.ok .eof, s)
  | '=' :: '=' :: _ => (.ok (.punct .eq), s.skip 2)
  | '=' :: _ => (.ok (.punct .assign), s.skip 1)
  | '!' :: '=' :: _ => (.ok (.punct .ne), s.skip 2)
  | '!' :: _ => (.error .loneBang, s.skip 2)
  | c :: cs =>
    if c.isDigit then
      let ds := c :: cs.takeWhile Char.isDigit
      let s := s.skip ds.length
      match Numeral.word ds with
      | .ok n => (.ok (.number n), s)
      | .error _ => (.error (.outOfRange (String.ofList ds)), s)
    else if isWordStart c then
      let w := c :: cs.takeWhile isWordPart
      let (t, s) := (s.skip w.length).word (String.ofList w)
      (.ok t, s)
    else match Punct.ofChar? c with
      | some p => (.ok (.punct p), s.skip 1)
      | none => (.error (.unexpected c), s.skip 1)

/-- Reads one token. At the end of the text this is `eof`, however often it is asked for. -/
def next (s : Scanner) : Reading × Scanner :=
  let s := s.skipBlanks
  let (token, s') := s.token
  ({ pos := s.pos, token }, s')

end Scanner

end Solo
