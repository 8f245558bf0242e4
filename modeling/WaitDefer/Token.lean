import WaitDefer.Source.Span

/-! The words of the language: reserved words, operators and punctuation, literals and names. -/
namespace WaitDefer

/-- Reserved words. -/
inductive Keyword
  | function | «let» | «if» | «else» | switch | case | default | «for» | «while» | «do»
  | «break» | «continue» | «return» | wait | defer | true | false | null
  deriving DecidableEq, Repr, Inhabited

namespace Keyword

def text : Keyword → String
  | function => "function"
  | «let» => "let"
  | «if» => "if"
  | «else» => "else"
  | switch => "switch"
  | case => "case"
  | default => "default"
  | «for» => "for"
  | «while» => "while"
  | «do» => "do"
  | «break» => "break"
  | «continue» => "continue"
  | «return» => "return"
  | wait => "wait"
  | defer => "defer"
  | true => "true"
  | false => "false"
  | null => "null"

def all : List Keyword :=
  [function, «let», «if», «else», switch, case, default, «for», «while», «do», «break»,
    «continue», «return», wait, defer, true, false, null]

theorem mem_all (k : Keyword) : k ∈ all := by cases k <;> decide

/-- The reserved word with this spelling. -/
def ofText? (s : String) : Option Keyword := all.find? (·.text == s)

/-- Words that can begin a statement; skipping after an error stops before them. -/
def startsStatement : Keyword → Bool
  | function | «let» | «if» | switch | «for» | «while» | «do» | «break» | «continue»
  | «return» | wait => Bool.true
  | _ => Bool.false

end Keyword

/-- Operators and punctuation. -/
inductive Symbol
  | equalEqual | bangEqual | lessEqual | greaterEqual | ampAmp | pipePipe
  | less | greater | plus | minus | star | slash | percent | bang | equal
  | dot | colon | semicolon | comma | leftParen | rightParen | leftBrace | rightBrace
  deriving DecidableEq, Repr, Inhabited

namespace Symbol

def text : Symbol → String
  | equalEqual => "=="
  | bangEqual => "!="
  | lessEqual => "<="
  | greaterEqual => ">="
  | ampAmp => "&&"
  | pipePipe => "||"
  | less => "<"
  | greater => ">"
  | plus => "+"
  | minus => "-"
  | star => "*"
  | slash => "/"
  | percent => "%"
  | bang => "!"
  | equal => "="
  | dot => "."
  | colon => ":"
  | semicolon => ";"
  | comma => ","
  | leftParen => "("
  | rightParen => ")"
  | leftBrace => "\x7b"
  | rightBrace => "\x7d"

/-- The operator written with two given characters. -/
def ofPair? : Char → Char → Option Symbol
  | '=', '=' => some equalEqual
  | '!', '=' => some bangEqual
  | '<', '=' => some lessEqual
  | '>', '=' => some greaterEqual
  | '&', '&' => some ampAmp
  | '|', '|' => some pipePipe
  | _, _ => none

/-- The symbol written with one given character. -/
def ofChar? : Char → Option Symbol
  | '<' => some less
  | '>' => some greater
  | '+' => some plus
  | '-' => some minus
  | '*' => some star
  | '/' => some slash
  | '%' => some percent
  | '!' => some bang
  | '=' => some equal
  | '.' => some dot
  | ':' => some colon
  | ';' => some semicolon
  | ',' => some comma
  | '(' => some leftParen
  | ')' => some rightParen
  | '\x7b' => some leftBrace
  | '\x7d' => some rightBrace
  | _ => none

end Symbol

/-- One word of a source text. -/
inductive Token
  | word (k : Keyword)
  | int (value : Int)
  | str (value : String)
  | ident (name : String)
  | sym (s : Symbol)
  | eof
  deriving DecidableEq, Repr, Inhabited

namespace Token

/-- How messages show a token. A string stands between quotes, its characters as they are. -/
def text : Token → String
  | word k => k.text
  | int n => toString n
  | str s => "\"" ++ s ++ "\""
  | ident name => name
  | sym s => s.text
  | eof => "end of file"

/-- The reserved word with this spelling, or else the name. -/
def ofName (spelling : String) : Token :=
  match Keyword.ofText? spelling with
  | some k => word k
  | none => ident spelling

/-- Spelling of a reserved word. -/
def keyword? : Token → Option String
  | word k => some k.text
  | _ => none

def startsStatement : Token → Bool
  | word k => k.startsStatement
  | _ => false

/-- Two tokens are of one kind if they differ at most in the value of a literal or the spelling
of a name. -/
def sameKind : Token → Token → Bool
  | word a, word b => a == b
  | int _, int _ => true
  | str _, str _ => true
  | ident _, ident _ => true
  | sym a, sym b => a == b
  | eof, eof => true
  | _, _ => false

end Token

/-- A token and where it stands. -/
structure Located where
  token : Token
  span : Span
  deriving DecidableEq, Repr, Inhabited

end WaitDefer
