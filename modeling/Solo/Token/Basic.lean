import Solo.Word

/-! The tokens of the language: numbers, names with their slots, four keywords, and punctuation.
The end of the source counts as a token, which can be read any number of times. -/

namespace Solo

inductive Keyword where
  | ifK
  | elseK
  | whileK
  | returnK
  deriving DecidableEq, Repr

namespace Keyword

def text : Keyword → String
  | .ifK => "if"
  | .elseK => "else"
  | .whileK => "while"
  | .returnK => "return"

def ofWord? : String → Option Keyword
  | "if" => some .ifK
  | "else" => some .elseK
  | "while" => some .whileK
  | "return" => some .returnK
  | _ => none

end Keyword

inductive Punct where
  | eq
  | ne
  | greater
  | less
  | plus
  | minus
  | star
  | slash
  | lparen
  | rparen
  | lbrace
  | rbrace
  | semicolon
  | assign
  deriving DecidableEq, Repr

namespace Punct

def text : Punct → String
  | .eq => "=="
  | .ne => "!="
  | .greater => ">"
  | .less => "<"
  | .plus => "+"
  | .minus => "-"
  | .star => "*"
  | .slash => "/"
  | .lparen => "("
  | .rparen => ")"
  | .lbrace => "\x7b"
  | .rbrace => "\x7d"
  | .semicolon => ";"
  | .assign => "="

/-- The punctuation that starts with `c` and nothing that starts with `c` continues. -/
def ofChar? : Char → Option Punct
  | '(' => some .lparen
  | ')' => some .rparen
  | '\x7b' => some .lbrace
  | '\x7d' => some .rbrace
  | ';' => some .semicolon
  | '+' => some .plus
  | '-' => some .minus
  | '*' => some .star
  | '/' => some .slash
  | '>' => some .greater
  | '<' => some .less
  | _ => none

end Punct

inductive Token where
  | number (value : Word)
  | ident (name : String) (slot : Nat)
  | keyword (k : Keyword)
  | punct (p : Punct)
  | eof
  deriving DecidableEq, Repr

/-- How messages call a token. -/
def Token.text : Token → String
  | .number n => "number " ++ Word.text n
  | .ident name _ => "identifier '" ++ name ++ "'"
  | .keyword k => "'" ++ k.text ++ "'"
  | .punct p => "'" ++ p.text ++ "'"
  | .eof => "end of file"

end Solo
