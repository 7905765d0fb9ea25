/-!
# Tokens

A token is a kind from a closed enumeration together with the text it was cut from.
Every kind has two spellings: its plain name, and the form shown in diagnostics, which for
operators and brackets is the symbol itself. The keyword and symbol tables live here and are the
only place where concrete spellings are fixed. How text is cut into tokens is in
`Inkwell.Token.Scan`.
-/

namespace Inkwell

/-- The lexical class of a token. -/
inductive Token.Kind where
  /-- A character that starts no token of the language. -/
  | illegal
  /-- The end of the input, repeated forever. -/
  | eof
  /-- A name that is not a keyword. -/
  | ident
  /-- A run of digits. -/
  | int
  | assign | plus | minus | bang | asterisk | slash
  | lt | gt | eq | notEq
  | comma | semicolon
  | lparen | rparen | lbrace | rbrace
  /-- The keyword `fn`. -/
  | fnKw
  /-- The keyword `let`. -/
  | letKw
  /-- The keyword `true`. -/
  | trueKw
  /-- The keyword `false`. -/
  | falseKw
  /-- The keyword `if`. -/
  | ifKw
  /-- The keyword `else`. -/
  | elseKw
  /-- The keyword `return`. -/
  | returnKw
  deriving DecidableEq, Repr, Inhabited

namespace Token.Kind

/-- All kinds, in the order of their declaration. -/
def all : List Kind :=
  [illegal, eof, ident, int, assign, plus, minus, bang, asterisk, slash, lt, gt, eq, notEq,
    comma, semicolon, lparen, rparen, lbrace, rbrace, fnKw, letKw, trueKw, falseKw, ifKw,
    elseKw, returnKw]

/-- The plain name, as token listings print it. -/
def name : Kind → String
  | illegal => "ILLEGAL"
  | eof => "EOF"
  | ident => "IDENT"
  | int => "INT"
  | assign => "ASSIGN"
  | plus => "PLUS"
  | minus => "MINUS"
  | bang => "BANG"
  | asterisk => "ASTERISK"
  | slash => "SLASH"
  | lt => "LT"
  | gt => "GT"
  | eq => "EQ"
  | notEq => "NOT_EQ"
  | comma => "COMMA"
  | semicolon => "SEMICOLON"
  | lparen => "LPAREN"
  | rparen => "RPAREN"
  | lbrace => "LBRACE"
  | rbrace => "RBRACE"
  | fnKw => "FUNCTION"
  | letKw => "LET"
  | trueKw => "TRUE"
  | falseKw => "FALSE"
  | ifKw => "IF"
  | elseKw => "ELSE"
  | returnKw => "RETURN"

/-- The kind with the given plain name. -/
def ofName? (name : String) : Option Kind :=
  all.find? fun kind => kind.name == name

/-- The form shown in diagnostics: the symbol for operators, commas and brackets, and the plain
name for everything else, the semicolon included. -/
def display : Kind → String
  | assign => "="
  | plus => "+"
  | minus => "-"
  | bang => "!"
  | asterisk => "*"
  | slash => "/"
  | lt => "<"
  | gt => ">"
  | eq => "=="
  | notEq => "!="
  | comma => ","
  | lparen => "("
  | rparen => ")"
  | lbrace => "\x7b"
  | rbrace => "\x7d"
  | kind => kind.name

/-- The kind of a word: a keyword if the table has it, and a name otherwise. -/
def ofWord (word : String) : Kind :=
  if word = "fn" then fnKw
  else if word = "let" then letKw
  else if word = "true" then trueKw
  else if word = "false" then falseKw
  else if word = "if" then ifKw
  else if word = "else" then elseKw
  else if word = "return" then returnKw
  else ident

/-- The kind of a symbol of one character. -/
def ofSymbol? : Char → Option Kind
  | '=' => some assign
  | '+' => some plus
  | '-' => some minus
  | '!' => some bang
  | '*' => some asterisk
  | '/' => some slash
  | '<' => some lt
  | '>' => some gt
  | ',' => some comma
  | ';' => some semicolon
  | '(' => some lparen
  | ')' => some rparen
  | '\x7b' => some lbrace
  | '\x7d' => some rbrace
  | _ => none

end Token.Kind

/-- A lexical unit: its class and the text it was cut from. -/
structure Token where
  /-- The lexical class. -/
  kind : Token.Kind
  /-- The text of the token. -/
  literal : String
  deriving DecidableEq, Repr, Inhabited

/-- The token that stands for the end of the input. -/
def Token.eof : Token := ⟨.eof, ""⟩

end Inkwell
